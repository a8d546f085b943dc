/-
The frame count is whatever `atoi` made of the argument. With none to hand out nothing is ever valid, and
the first page that is read makes the victim search read `table[-1]`; with one or more the search finds a
page for as long as the counter it starts from has not run over.
-/
import UnixSysProg.Vmm2.Frames

namespace UnixSysProg.Vmm2

open UnixSysProg.Lib UnixSysProg.Vmm

namespace VirtualMemoryManager

/-! ## Choosing a frame -/

/-- The request needs a frame for its page. -/
def NeedsFrame (m : VirtualMemoryManager) (r : Request) : Prop := m.Faults r ∧ ∃ page, m.getPage r = .ok page

/-- When the request needs a frame and none is free, some valid page has a stamp below the value that the
search starts from. -/
def BelowStart (m : VirtualMemoryManager) (r : Request) : Prop :=
  m.NeedsFrame r → m.workingSet.isFreeFrame = false → ∃ p, (m.pageTable.accessPage r.page).Valid p ∧
    (m.pageTable.accessPage r.page).stamp p < ((m.pageTable.accessPage r.page).clock + 1).toInt

/-- A manager without frames, before and after requests that fail. -/
structure Frameless (m : VirtualMemoryManager) : Prop where
  frames : m.numberOfFramesInPm ≤ 0
  set : m.workingSet.set = []
  invalid : ∀ p, ¬ m.pageTable.Valid p
  tlb : ∀ p, m.tlb.lookup p = none

variable {m m' : VirtualMemoryManager} {r : Request} {resp : Response}

theorem isFreeFrame_eq_false : m.workingSet.isFreeFrame = false ↔ m.workingSet.set = [] := by
  simp [WorkingSet.isFreeFrame]

theorem Frameless.initial {n : Int} (hn : n ≤ 0) (s : ReplacementStrategy) (bs : BackingStore) :
    Frameless (initial n s bs) := by
  constructor
  · exact hn
  · show (WorkingSet.initial n).set = []
    rw [WorkingSet.initial_set, Int.toNat_of_nonpos hn]
    rfl
  · intro p hp
    cases hp
  · exact Tlb.lookup_initial

theorem Frameless.faults (h : Frameless m) (r : Request) : m.Faults r := ⟨h.tlb _, h.invalid _⟩

theorem Frameless.belowStart_iff (h : Frameless m) : m.BelowStart r ↔ ¬ ∃ page, m.getPage r = .ok page := by
  constructor
  · intro hbelow hpage
    obtain ⟨p, hp, _⟩ := hbelow ⟨h.faults r, hpage⟩ (isFreeFrame_eq_false.2 h.set)
    rw [PageTable.accessPage_valid] at hp
    exact h.invalid p hp
  · intro hnone hneeds
    exact absurd hneeds.2 hnone

theorem Frameless.afterFailure (h : Frameless m) (p : PageNumber) : Frameless (m.afterFailure p) := by
  constructor
  · exact h.frames
  · exact h.set
  · intro q
    show ¬ (m.pageTable.accessPage p).Valid q
    rw [PageTable.accessPage_valid]
    exact h.invalid q
  · exact h.tlb

/-- Without frames a page that is read makes the search read `table[-1]`. -/
theorem Frameless.readByte_loaded (h : Frameless m) {page : Page} (hg : m.getPage r = .ok page) :
    m.readByte r = .error .tableIndex := by
  obtain ⟨hl, hv⟩ := h.faults r
  have hnone : (m.pageTable.accessPage r.page).victim = none := by
    by_contra hsome
    obtain ⟨v, hvict⟩ := Option.ne_none_iff_exists'.1 hsome
    exact h.invalid v (victim_valid hvict)
  exact readByte_no_victim hl hv hg h.set hnone

theorem Frameless.readByte_failed (h : Frameless m) {e : Errno} (hg : m.getPage r = .error e) :
    m.readByte r = .ok (m.afterFailure r.page, .failed) := by
  obtain ⟨hl, hv⟩ := h.faults r
  rw [readByte_fault hl hv, pageFault_failed (m := m.lookedUp r.page) hg]
  rfl

/-! ## The choice is safe when the search finds a page -/

/-- The manager has frames, or none at all. -/
def Grounded (m : VirtualMemoryManager) : Prop := FrameInv m ∨ Frameless m

theorem Grounded.initial (n : Int) (s : ReplacementStrategy) (bs : BackingStore) : Grounded (initial n s bs) := by
  by_cases hn : 1 ≤ n
  · exact .inl (frameInv_initial hn s bs)
  · exact .inr (Frameless.initial (by omega) s bs)

theorem Grounded.readByte (h : Grounded m) (hr : m.readByte r = .ok (m', resp)) : Grounded m' := by
  rcases h with h | h
  · exact .inl (h.access (access_of_readByte h hr))
  · right
    cases hg : m.getPage r with
    | ok page =>
      rw [h.readByte_loaded hg] at hr
      cases hr
    | error e =>
      rw [h.readByte_failed hg] at hr
      cases hr
      exact h.afterFailure r.page

/-- The free frame for a page that is not valid is the number of valid pages, of which there are 256 at most. -/
theorem Grounded.free (h : Grounded m) (hv : ¬ m.pageTable.Valid r.page) (hfree : m.workingSet.isFreeFrame = true) :
    0 ≤ m.workingSet.getFreeFrame.2 ∧ m.workingSet.getFreeFrame.2 < 256 := by
  cases hs : m.workingSet.set with
  | nil =>
    rw [isFreeFrame_eq_false.2 hs] at hfree
    cases hfree
  | cons top rest =>
    rcases h with h | h
    · obtain ⟨htop, _⟩ := h.free_cons hs
      have hlt := residents_lt hv
      have hget : m.workingSet.getFreeFrame.2 = top := by simp only [WorkingSet.getFreeFrame, hs]
      rw [hget]
      omega
    · rw [h.set] at hs
      cases hs

/-- The frame of a victim that the search has found leads back to it. -/
theorem Grounded.victim (h : Grounded m) {v : PageNumber} (hvict : (m.pageTable.accessPage r.page).victim = some v) :
    (∃ p, m.pageTable.Valid p) ∧
      ∃ f, (m.pageTable.accessPage r.page).findVictim = .ok f ∧ (m.pageTable.accessPage r.page).rlookup f ≠ none := by
  have hv := victim_valid hvict
  rcases h with h | h
  · refine ⟨⟨v, hv⟩, (m.pageTable.accessPage r.page).frame v, ?_, ?_⟩
    · rw [PageTable.findVictim_eq, hvict]
    · rw [h.rlookup hv]
      exact Option.some_ne_none _
  · exact absurd hv (h.invalid v)

/-- Without frames it never finds one, so that no page may ever have to be read. -/
theorem Frameless.along_iff : ∀ {rs : List Request} {m : VirtualMemoryManager}, Frameless m →
    (Along VirtualMemoryManager.readByte BelowStart m rs ↔ ∀ r ∈ rs, ¬ ∃ page, m.getPage r = .ok page)
  | [], _, _ => by simp [Along]
  | r :: rs, m, h => by
    rw [along_cons, h.belowStart_iff, List.forall_mem_cons]
    refine and_congr_right fun hnone => ?_
    obtain ⟨e, hg⟩ : ∃ e, m.getPage r = .error e := by
      cases hg : m.getPage r with
      | ok page => exact absurd ⟨page, hg⟩ hnone
      | error e => exact ⟨e, rfl⟩
    have hr := h.readByte_failed hg
    have hrest : Along VirtualMemoryManager.readByte BelowStart (m.afterFailure r.page) rs ↔
        ∀ x ∈ rs, ¬ ∃ page, (m.afterFailure r.page).getPage x = .ok page := (h.afterFailure r.page).along_iff
    constructor
    · intro hall
      exact hrest.1 (hall _ _ hr)
    · intro hall m' resp hr'
      rw [hr] at hr'
      cases hr'
      exact hrest.2 hall

end VirtualMemoryManager

end UnixSysProg.Vmm2
