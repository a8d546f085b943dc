/-
The translation lookaside buffer (`tlb.cpp`): sixteen entries searched in order and replaced round
robin. `lookup`, `addEntry` and `getVictim` are the same in both generations; `invalidate` exists
in `pa3_3/VMM2` only.
-/
import UnixSysProg.Vmm.Globals
import Mathlib.Logic.Function.Basic

namespace UnixSysProg.Vmm

/-- `struct TlbEntry`. -/
structure TlbEntry where
  pageNumber : PageNumber := 0
  frameNumber : FrameNumber := 0
  valid : Bool := false
  deriving DecidableEq, Repr

/-- `class Tlb`. `robin` starts at `-1` and stays below the number of entries. -/
@[ext] structure Tlb where
  table : Fin numberOfTlbEntries → TlbEntry
  robin : Int
  robin_lo : -1 ≤ robin
  robin_hi : robin < 16

namespace Tlb

/-- The table `initialize` leaves: sixteen invalid entries, `robin = -1`. -/
def initial : Tlb := ⟨fun _ => {}, -1, by decide, by decide⟩

def entries (t : Tlb) : List TlbEntry := List.ofFn t.table

/-- `Tlb::lookup`: the frame of the first valid entry for the page; `none` is a miss. -/
def lookup (t : Tlb) (pageno : PageNumber) : Option FrameNumber :=
  (t.entries.find? fun tlbEntry => tlbEntry.valid && tlbEntry.pageNumber == pageno).map (·.frameNumber)

/-- `Tlb::invalidate`: the first valid entry for the frame is found and its flag cleared, but in
`tlbEntry`, the loop's own copy of `table[i]`; no entry of `table` is assigned. -/
def invalidate (t : Tlb) (frameno : FrameNumber) : Tlb :=
  let _tlbEntry : Option TlbEntry :=
    (t.entries.find? fun tlbEntry => tlbEntry.valid && tlbEntry.frameNumber == frameno).map
      fun tlbEntry => { tlbEntry with valid := false }
  t

/-- `Tlb::getVictim`: `robin = (robin + 1) % NumberOfTlbEntries`. -/
def getVictim (t : Tlb) : Int := (t.robin + 1).tmod numberOfTlbEntries

theorem getVictim_eq (t : Tlb) : t.getVictim = (t.robin + 1) % 16 :=
  Int.tmod_eq_emod_of_nonneg (by have := t.robin_lo; omega)

theorem getVictim_lo (t : Tlb) : 0 ≤ t.getVictim := by rw [getVictim_eq]; omega

theorem getVictim_hi (t : Tlb) : t.getVictim < 16 := by rw [getVictim_eq]; omega

/-- The entry `addEntry` overwrites. -/
def victimIndex (t : Tlb) : Fin numberOfTlbEntries :=
  ⟨t.getVictim.toNat, (Int.toNat_lt t.getVictim_lo).2 t.getVictim_hi⟩

/-- `Tlb::addEntry`. -/
def addEntry (t : Tlb) (tlbEntry : TlbEntry) : Tlb where
  table := Function.update t.table t.victimIndex tlbEntry
  robin := t.getVictim
  robin_lo := by have := t.getVictim_lo; omega
  robin_hi := t.getVictim_hi

/-! ## Lookups -/

theorem mem_entries {t : Tlb} {e : TlbEntry} : e ∈ t.entries ↔ ∃ i, t.table i = e := List.mem_ofFn

theorem lookup_some {t : Tlb} {pageno : PageNumber} {frameno : FrameNumber} (h : t.lookup pageno = some frameno) :
    ∃ i, (t.table i).valid = true ∧ (t.table i).pageNumber = pageno ∧ (t.table i).frameNumber = frameno := by
  obtain ⟨e, he, rfl⟩ := Option.map_eq_some_iff.1 h
  obtain ⟨i, rfl⟩ := mem_entries.1 (List.mem_of_find?_eq_some he)
  have hp := List.find?_some he
  simp only [Bool.and_eq_true, beq_iff_eq] at hp
  exact ⟨i, hp.1, hp.2, rfl⟩

theorem lookup_none_iff {t : Tlb} {pageno : PageNumber} :
    t.lookup pageno = none ↔ ∀ i, (t.table i).valid = true → (t.table i).pageNumber ≠ pageno := by
  unfold lookup
  rw [Option.map_eq_none_iff, List.find?_eq_none]
  constructor
  · intro h i hv hp
    have := h _ (mem_entries.2 ⟨i, rfl⟩)
    simp [hv, hp] at this
  · rintro h e he
    obtain ⟨i, rfl⟩ := mem_entries.1 he
    simpa using h i

theorem lookup_initial (pageno : PageNumber) : initial.lookup pageno = none :=
  lookup_none_iff.2 fun _ h => by cases h

/-! ## What holds of every valid entry -/

/-- Every valid entry maps its page to a frame related by `Q`. -/
def All (t : Tlb) (Q : PageNumber → FrameNumber → Prop) : Prop :=
  ∀ i, (t.table i).valid = true → Q (t.table i).pageNumber (t.table i).frameNumber

theorem all_initial (Q : PageNumber → FrameNumber → Prop) : initial.All Q := fun _ h => by cases h

theorem All.mono {t : Tlb} {Q Q' : PageNumber → FrameNumber → Prop} (h : t.All Q)
    (hQ : ∀ p f, Q p f → Q' p f) : t.All Q' := fun i hi => hQ _ _ (h i hi)

theorem All.lookup {t : Tlb} {Q : PageNumber → FrameNumber → Prop} (h : t.All Q) {pageno : PageNumber}
    {frameno : FrameNumber} (hl : t.lookup pageno = some frameno) : Q pageno frameno := by
  obtain ⟨i, hv, rfl, rfl⟩ := lookup_some hl
  exact h i hv

/-- On a miss no valid entry is for the page. -/
theorem All.miss {t : Tlb} {Q : PageNumber → FrameNumber → Prop} (h : t.All Q) {pageno : PageNumber}
    (hl : t.lookup pageno = none) : t.All fun q f => Q q f ∧ q ≠ pageno :=
  fun i hi => ⟨h i hi, lookup_none_iff.1 hl i hi⟩

theorem All.addEntry {t : Tlb} {Q : PageNumber → FrameNumber → Prop} (h : t.All Q) {e : TlbEntry}
    (he : Q e.pageNumber e.frameNumber) : (t.addEntry e).All Q := by
  intro i hi
  simp only [Tlb.addEntry, Function.update_apply] at hi ⊢
  split
  · exact he
  · rename_i hne; rw [if_neg hne] at hi; exact h i hi

/-! ## Two tables with the same pages -/

/-- Entry by entry the same page and flag, and the same next victim; the frames may differ. -/
def SamePages (t u : Tlb) : Prop :=
  t.robin = u.robin ∧ ∀ i, (t.table i).valid = (u.table i).valid ∧ (t.table i).pageNumber = (u.table i).pageNumber

theorem SamePages.refl (t : Tlb) : t.SamePages t := ⟨rfl, fun _ => ⟨rfl, rfl⟩⟩

theorem SamePages.lookup_none {t u : Tlb} (h : t.SamePages u) (pageno : PageNumber) :
    t.lookup pageno = none ↔ u.lookup pageno = none := by
  rw [lookup_none_iff, lookup_none_iff]
  refine forall_congr' fun i => ?_
  rw [(h.2 i).1, (h.2 i).2]

theorem SamePages.addEntry {t u : Tlb} (h : t.SamePages u) {e e' : TlbEntry} (hv : e.valid = e'.valid)
    (hp : e.pageNumber = e'.pageNumber) : (t.addEntry e).SamePages (u.addEntry e') := by
  have hi : t.victimIndex = u.victimIndex := Fin.ext (by simp only [victimIndex, getVictim, h.1])
  refine ⟨by simp only [Tlb.addEntry, getVictim, h.1], fun i => ?_⟩
  simp only [Tlb.addEntry, Function.update_apply, hi]
  split
  · exact ⟨hv, hp⟩
  · exact h.2 i

end Tlb

end UnixSysProg.Vmm
