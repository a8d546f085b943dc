/-
The types and constants of `globals.h`, shared by the two generations of the virtual memory
manager (`pa3_2`, `pa3_3/VMM2`), and the arithmetic that takes addresses apart. `uint16_t`
addresses are `BitVec 16`, `uint8_t` page and frame numbers are `Fin 256` (they index 256-entry
tables), and `int` counters are `Int32`, which wraps as the compiled code does.
-/
import Mathlib.Data.BitVec
import Mathlib.Data.Fin.Basic

namespace UnixSysProg.Vmm

/-! ## Types and constants -/

def statusSuccess : Int := 0
def statusFailure : Int := -1

abbrev VirtualAddress := BitVec 16
abbrev PhysicalAddress := BitVec 16
abbrev Byte := BitVec 8
abbrev FrameNumber := Fin 256
abbrev PageNumber := Fin 256

abbrev pageSize : Nat := 256
abbrev frameSize : Nat := 256
abbrev numberOfPageInVm : Nat := 256
abbrev numberOfTlbEntries : Nat := 16

def numBitsForPageOffset : Nat := Nat.log2 pageSize
def numBitsForFrameOffset : Nat := Nat.log2 frameSize

def virtualAddressOffsetMask : VirtualAddress := 0xFF
def physicalAddressOffsetMask : PhysicalAddress := 0xFF
def pageNumMask : VirtualAddress := 0xFF00
def frameNumMaks : PhysicalAddress := 0xFF00

inductive ReplacementStrategy
  | fifo
  | lru
  deriving DecidableEq, Repr

/-- The conversion of an `int` to `uint8_t`. -/
def toFrameNumber (i : Int) : FrameNumber := ⟨(i % 256).toNat, by omega⟩

/-! ## Addresses -/

def getOffsetFromPhysicalAddress (address : PhysicalAddress) : Nat :=
  (address &&& physicalAddressOffsetMask).toNat

def getOffsetFromLogicalAddress (address : VirtualAddress) : Nat :=
  (address &&& virtualAddressOffsetMask).toNat

def getFrameNumberFromPhysicalAddress (address : PhysicalAddress) : FrameNumber :=
  toFrameNumber ((address &&& frameNumMaks) >>> numBitsForFrameOffset).toNat

def getPageNumberFromLogicalAddress (address : VirtualAddress) : PageNumber :=
  toFrameNumber ((address &&& pageNumMask) >>> numBitsForPageOffset).toNat

/-- `(frameno << numBitsForFrameOffset) + offset`, computed in `int` and stored in 16 bits. -/
def physicalAddressOf (frameno : FrameNumber) (offset : Nat) : PhysicalAddress :=
  BitVec.ofNat 16 (frameno.val <<< numBitsForFrameOffset + offset)

theorem toFrameNumber_val {n : Nat} (h : n < 256) : (toFrameNumber n).val = n := by
  simp only [toFrameNumber]; omega

@[simp] theorem toFrameNumber_cast (f : FrameNumber) : toFrameNumber (f.val : Int) = f :=
  Fin.ext (toFrameNumber_val f.isLt)

theorem low_byte (a : BitVec 16) : (a &&& 0xFF#16).toNat = a.toNat % 256 := by
  rw [BitVec.toNat_and]
  exact Nat.and_two_pow_sub_one_eq_mod a.toNat 8

theorem high_byte (a : BitVec 16) : ((a &&& 0xFF00#16) >>> 8).toNat = a.toNat / 256 := by
  have ha : a.toNat / 256 < 256 := by have := a.isLt; omega
  rw [BitVec.toNat_ushiftRight, BitVec.toNat_and, Nat.shiftRight_and_distrib, Nat.shiftRight_eq_div_pow]
  exact (Nat.and_two_pow_sub_one_eq_mod _ 8).trans (Nat.mod_eq_of_lt ha)

theorem getOffsetFromLogicalAddress_eq (address : VirtualAddress) :
    getOffsetFromLogicalAddress address = address.toNat % 256 := low_byte address

theorem getOffsetFromLogicalAddress_lt (address : VirtualAddress) : getOffsetFromLogicalAddress address < 256 := by
  rw [getOffsetFromLogicalAddress_eq]; omega

theorem getPageNumberFromLogicalAddress_val (address : VirtualAddress) :
    (getPageNumberFromLogicalAddress address).val = address.toNat / 256 := by
  have hlt : address.toNat / 256 < 256 := by have := address.isLt; omega
  have hb : ((address &&& pageNumMask) >>> numBitsForPageOffset).toNat = address.toNat / 256 := high_byte address
  rw [getPageNumberFromLogicalAddress, hb]
  exact toFrameNumber_val hlt

/-- Page number and offset make up the address. -/
theorem page_offset_eq (address : VirtualAddress) :
    (getPageNumberFromLogicalAddress address).val * pageSize + getOffsetFromLogicalAddress address = address.toNat := by
  rw [getPageNumberFromLogicalAddress_val, getOffsetFromLogicalAddress_eq]
  show address.toNat / 256 * 256 + address.toNat % 256 = address.toNat
  omega

theorem physicalAddressOf_toNat (frameno : FrameNumber) {offset : Nat} (h : offset < 256) :
    (physicalAddressOf frameno offset).toNat = 256 * frameno.val + offset := by
  have hs : frameno.val <<< numBitsForFrameOffset = frameno.val * 256 := Nat.shiftLeft_eq _ 8
  have := frameno.isLt
  rw [physicalAddressOf, hs, BitVec.toNat_ofNat]
  omega

theorem getFrameNumber_physicalAddressOf (frameno : FrameNumber) {offset : Nat} (h : offset < 256) :
    getFrameNumberFromPhysicalAddress (physicalAddressOf frameno offset) = frameno := by
  have hb : ((physicalAddressOf frameno offset &&& frameNumMaks) >>> numBitsForFrameOffset).toNat = frameno.val := by
    refine (high_byte _).trans ?_
    rw [physicalAddressOf_toNat frameno h]; omega
  rw [getFrameNumberFromPhysicalAddress, hb, toFrameNumber_cast]

theorem getOffset_physicalAddressOf (frameno : FrameNumber) {offset : Nat} (h : offset < 256) :
    getOffsetFromPhysicalAddress (physicalAddressOf frameno offset) = offset := by
  refine (low_byte _).trans ?_
  rw [physicalAddressOf_toNat frameno h]; omega

/-! ## Counters -/

/-- Below the largest `int`, `++` counts. -/
theorem toInt_incr {c : Int32} (h : c.toInt < 2 ^ 31 - 1) : (c + 1).toInt = c.toInt + 1 := by
  have := c.le_toInt
  rw [Int32.toInt_add]
  exact Int.bmod_eq_of_le (by simp; omega) (by simp; omega)

end UnixSysProg.Vmm
