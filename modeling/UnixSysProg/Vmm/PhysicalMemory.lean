/-
Physical memory (`physicalmemory.cpp`): the parts both generations share. `NumberOfFramesInPm` is
the constant 256 in `pa3_2` and a global set from the command line in `pa3_3/VMM2`; the frames
themselves are always 256.
-/
import UnixSysProg.Vmm.BackingStore
import Mathlib.Logic.Function.Basic

namespace UnixSysProg.Vmm

/-- `class PhysicalMemory`: the frames, and the counter `findVictim` advances. -/
@[ext] structure PhysicalMemory where
  frames : FrameNumber → Page
  frameno : FrameNumber

namespace PhysicalMemory

/-- The memory `initialize` leaves: zeroed frames, `frameno = -1` in eight bits. -/
def initial : PhysicalMemory := ⟨fun _ _ => 0, toFrameNumber (-1)⟩

/-- `PhysicalMemory::readByte`; `none` is `status_failure`. -/
def readByte (pm : PhysicalMemory) (address : PhysicalAddress) : Option Byte :=
  Page.getByte (pm.frames (getFrameNumberFromPhysicalAddress address)) (getOffsetFromPhysicalAddress address)

/-- `PhysicalMemory::loadFrame`; `none` is `status_failure`. -/
def loadFrame (pm : PhysicalMemory) (numberOfFramesInPm : Int) (frameno : FrameNumber) (page : Page) :
    Option PhysicalMemory :=
  if (frameno.val : Int) ≥ numberOfFramesInPm then none
  else some { pm with frames := Function.update pm.frames frameno page }

/-- `PhysicalMemory::findVictim`: the next frame, round robin. -/
def findVictim (pm : PhysicalMemory) (numberOfFramesInPm : Int) : PhysicalMemory × FrameNumber :=
  let frameno := toFrameNumber (((pm.frameno.val : Int) + 1).tmod numberOfFramesInPm)
  ({ pm with frameno := frameno }, frameno)

theorem loadFrame_lt (pm : PhysicalMemory) {n : Int} {frameno : FrameNumber} (h : (frameno.val : Int) < n) (page : Page) :
    pm.loadFrame n frameno page = some { pm with frames := Function.update pm.frames frameno page } :=
  if_neg (by omega)

theorem loadFrame_ne_none (pm : PhysicalMemory) {n : Int} {frameno : FrameNumber} (h : (frameno.val : Int) < n)
    (page : Page) : pm.loadFrame n frameno page ≠ none := by
  rw [pm.loadFrame_lt h]; exact Option.some_ne_none _

/-- Reading through a translated address reads the frame at the offset. -/
theorem readByte_physicalAddressOf (pm : PhysicalMemory) (frameno : FrameNumber) {offset : Nat} (h : offset < 256) :
    pm.readByte (physicalAddressOf frameno offset) = some (pm.frames frameno ⟨offset, h⟩) := by
  unfold readByte
  rw [getFrameNumber_physicalAddressOf frameno h, getOffset_physicalAddressOf frameno h]
  exact Page.getByte_lt _ h

end PhysicalMemory

end UnixSysProg.Vmm
