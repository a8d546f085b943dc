/-
Descriptor tables: a process has a finite set of open descriptors, what it opens next gets the lowest number
that is not in use, and a descriptor duplicated onto another one refers to the same afterwards.
-/
import Mathlib.Data.Finset.Card
import Mathlib.Data.Finset.Image
import Mathlib.Data.Int.Cast.Basic
import Mathlib.Data.Finset.Range

namespace UnixSysProg.Lib

/-- The lowest descriptor not in use. -/
def lowestUnused (fds : Finset Int) : Int :=
  ((List.range (fds.card + 1)).find? fun n : Nat => decide ((n : Int) ∉ fds)).getD fds.card

/-- One of the numbers up to that of the open descriptors is free. -/
theorem lowestUnused_notMem (fds : Finset Int) : lowestUnused fds ∉ fds := by
  unfold lowestUnused
  cases hfind : (List.range (fds.card + 1)).find? fun n : Nat => decide ((n : Int) ∉ fds) with
  | some n => simpa using List.find?_some hfind
  | none =>
    rw [List.find?_eq_none] at hfind
    have hsub : (Finset.range (fds.card + 1)).image (fun n : Nat => (n : Int)) ⊆ fds := by
      intro i hi
      obtain ⟨n, hn, rfl⟩ := Finset.mem_image.1 hi
      simpa using hfind n (List.mem_range.2 (Finset.mem_range.1 hn))
    have hcard := Finset.card_le_card hsub
    rw [Finset.card_image_of_injective _ fun a b h => Int.natCast_inj.1 h, Finset.card_range] at hcard
    omega

/-- A pipe's two ends, the read end first. -/
def openPipe (fds : Finset Int) : Int × Int := (lowestUnused fds, lowestUnused (insert (lowestUnused fds) fds))

variable {fds : Finset Int}

theorem openPipe_read_notMem : (openPipe fds).1 ∉ fds := lowestUnused_notMem fds

theorem openPipe_write_ne_read : (openPipe fds).2 ≠ (openPipe fds).1 := fun h =>
  lowestUnused_notMem (insert (lowestUnused fds) fds) (Finset.mem_insert.2 (.inl h))

/-- A descriptor that was open before is not the write end of the new pipe. -/
theorem openPipe_write_notMem : (openPipe fds).2 ∉ fds := fun h =>
  lowestUnused_notMem (insert (lowestUnused fds) fds) (Finset.mem_insert.2 (.inr h))

/-! ## What descriptors refer to -/

/-- The open descriptors, and what each refers to. -/
structure DescriptorTable (δ : Type) where
  fds : Finset Int
  refers : Int → δ

namespace DescriptorTable

variable {δ : Type} (t : DescriptorTable δ)

def lookup (fd : Int) : Option δ := if fd ∈ t.fds then some (t.refers fd) else none

/-- A new descriptor for `d`. -/
def open_ (d : δ) : Int × DescriptorTable δ :=
  let fd := lowestUnused t.fds
  (fd, ⟨insert fd t.fds, Function.update t.refers fd d⟩)

/-- The descriptor `new` for what `old` refers to; there is none if `old` is not open. -/
def dup (old new : Int) : Option (DescriptorTable δ) :=
  (t.lookup old).map fun d => ⟨insert new t.fds, Function.update t.refers new d⟩

theorem lookup_open (d : δ) (fd : Int) :
    (t.open_ d).2.lookup fd = if fd = lowestUnused t.fds then some d else t.lookup fd := by
  by_cases h : fd = lowestUnused t.fds
  · simp [lookup, open_, h]
  · simp [lookup, open_, h]

theorem dup_eq_none {old new : Int} : t.dup old new = none ↔ t.lookup old = none := by
  simp [dup]

theorem lookup_dup {old new : Int} {t' : DescriptorTable δ} (h : t.dup old new = some t') (fd : Int) :
    t'.lookup fd = if fd = new then t.lookup old else t.lookup fd := by
  obtain ⟨d, hd, rfl⟩ := Option.map_eq_some_iff.1 h
  by_cases hfd : fd = new
  · simp [lookup, hfd, ← hd]
  · simp [lookup, hfd]

theorem fds_dup {old new : Int} {t' : DescriptorTable δ} (h : t.dup old new = some t') :
    t'.fds = insert new t.fds := by
  obtain ⟨d, _, rfl⟩ := Option.map_eq_some_iff.1 h
  rfl

/-- The same descriptors, for what `f` makes of what they refer to. -/
def map {ε : Type} (f : δ → ε) : DescriptorTable ε := ⟨t.fds, fun fd => f (t.refers fd)⟩

theorem lookup_map {ε : Type} (f : δ → ε) (fd : Int) : (t.map f).lookup fd = (t.lookup fd).map f := by
  unfold lookup map
  split_ifs <;> rfl

end DescriptorTable

end UnixSysProg.Lib
