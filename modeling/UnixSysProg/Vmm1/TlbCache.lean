/-
The TLB as a cache of its own: read from the slot that is overwritten next, it holds the pages of the
sixteen last requests that missed it, the oldest one first. A page comes in on a miss only, so that no
two entries are for the same page.
-/
import UnixSysProg.Vmm1.Manager
import UnixSysProg.Lib.Fifo
import UnixSysProg.Lib.Run

namespace UnixSysProg.Vmm

open UnixSysProg.Lib

namespace Tlb

variable {t : Tlb} {e : TlbEntry} {p : PageNumber} {i : Fin numberOfTlbEntries}

/-- The page that an entry is for, if it is valid. -/
def slot (t : Tlb) (i : Fin numberOfTlbEntries) : Option PageNumber :=
  if (t.table i).valid then some (t.table i).pageNumber else none

theorem slot_eq_some : t.slot i = some p ↔ (t.table i).valid = true ∧ (t.table i).pageNumber = p := by
  unfold slot
  split_ifs with h <;> simp [h]

theorem lookup_eq_none_iff_slot : t.lookup p = none ↔ ¬ ∃ i, t.slot i = some p := by
  rw [lookup_none_iff, not_exists]
  simp only [slot_eq_some, not_and, ne_eq]

theorem addEntry_slot (he : e.valid = true) :
    (t.addEntry e).slot = Function.update t.slot t.victimIndex (some e.pageNumber) := by
  funext i
  unfold slot addEntry
  by_cases hi : i = t.victimIndex
  · subst hi
    simp [he]
  · simp [Function.update_of_ne hi]

theorem addEntry_victimIndex : (t.addEntry e).victimIndex = nextSlot (m := 15) t.victimIndex := by
  have hlo := t.getVictim_lo
  have hhi := t.getVictim_hi
  refine Fin.ext ?_
  show (t.addEntry e).getVictim.toNat = (t.victimIndex + 1 : Fin 16).val
  rw [getVictim_eq, Fin.val_add]
  show ((t.getVictim + 1) % 16).toNat = (t.getVictim.toNat + 1) % 16
  omega

end Tlb

end UnixSysProg.Vmm

namespace UnixSysProg.Vmm1

open UnixSysProg.Lib UnixSysProg.Vmm

namespace VirtualMemoryManager

/-- The pages of the requests that miss the TLB, in their order. -/
def missed : VirtualMemoryManager → List Request → List PageNumber
  | _, [] => []
  | m, r :: rs =>
    if m.tlb.lookup r.page = none then r.page :: missed (m.readByte r).1 rs else missed (m.readByte r).1 rs

/-- The TLB after the pages `ps` were entered, none of them while it was there. -/
structure Cached (ps : List PageNumber) (m : VirtualMemoryManager) : Prop where
  entered : Entered numberOfTlbEntries ps
  written : Written (m := 15) m.tlb.slot m.tlb.victimIndex ps

namespace Cached

variable {ps : List PageNumber} {m : VirtualMemoryManager} {r : Request}

theorem initial (bs : BackingStore) : Cached [] (initial bs) :=
  ⟨.nil, written_nil (fun _ => rfl) _⟩

theorem lookup_eq_none (h : Cached ps m) (p : PageNumber) : m.tlb.lookup p = none ↔ p ∉ held numberOfTlbEntries ps := by
  rw [Tlb.lookup_eq_none_iff_slot]
  exact not_congr h.written.exists_iff

theorem keep (h : Cached ps m) {m' : VirtualMemoryManager} (ht : m'.tlb = m.tlb) : Cached ps m' := by
  constructor
  · exact h.entered
  · rw [ht]
    exact h.written

theorem enter (h : Cached ps m) {p : PageNumber} {f : FrameNumber} {m' : VirtualMemoryManager}
    (hl : m.tlb.lookup p = none) (ht : m'.tlb = m.tlb.addEntry ⟨p, f, true⟩) : Cached (ps ++ [p]) m' := by
  constructor
  · exact h.entered.enter ((h.lookup_eq_none p).1 hl)
  · rw [ht, Tlb.addEntry_slot rfl, Tlb.addEntry_victimIndex]
    exact h.written.write p

/-- A request that misses enters its page, unless the page cannot be read. -/
theorem readByte (h : Cached ps m) (hg : ∃ page, m.getPage r = .ok page) :
    Cached (if m.tlb.lookup r.page = none then ps ++ [r.page] else ps) (m.readByte r).1 := by
  cases hl : m.tlb.lookup r.page with
  | some f =>
    rw [if_neg (Option.some_ne_none f), readByte_tlbHit hl]
    exact h.keep rfl
  | none =>
    rw [if_pos rfl]
    by_cases hv : m.pageTable.Valid r.page
    · rw [readByte_pageHit hl hv]
      exact h.enter hl rfl
    · obtain ⟨page, hpage⟩ := hg
      rw [readByte_loaded hl hv hpage]
      exact h.enter hl rfl

end Cached

/-- A request leaves the backing store as it is, and counts a TLB hit when it finds its page there. -/
theorem readByte_counted (m : VirtualMemoryManager) (r : Request) :
    (m.readByte r).1.backingStore = m.backingStore ∧
      (m.readByte r).1.tlbhits = if m.tlb.lookup r.page = none then m.tlbhits else m.tlbhits + 1 := by
  cases hl : m.tlb.lookup r.page with
  | some f => rw [readByte_tlbHit hl]; exact ⟨rfl, rfl⟩
  | none =>
    by_cases hv : m.pageTable.Valid r.page
    · rw [readByte_pageHit hl hv]; exact ⟨rfl, rfl⟩
    · cases hg : m.getPage r with
      | error e => rw [readByte_failed hl hv hg]; exact ⟨rfl, rfl⟩
      | ok page => rw [readByte_loaded hl hv hg]; exact ⟨rfl, rfl⟩

theorem Cached.run {bs : BackingStore} {rs : List Request}
    (hio : ∀ r ∈ rs, ∃ page, bs.getPage (r.page.val * pageSize) pageSize r.io = .ok page) :
    ∀ {ps : List PageNumber} {m : VirtualMemoryManager}, m.backingStore = bs → Cached ps m →
      ∃ m' resps, run step m rs = .ok (m', resps) ∧ Cached (ps ++ missed m rs) m' := by
  induction rs with
  | nil =>
    intro ps m _ h
    exact ⟨m, [], rfl, by simpa [missed] using h⟩
  | cons r rs ih =>
    intro ps m hbs h
    obtain ⟨hr, hrs⟩ := List.forall_mem_cons.1 hio
    have hstep := h.readByte (r := r) (by unfold getPage; rw [hbs]; exact hr)
    obtain ⟨m', resps, hrun, hcached⟩ := ih hrs ((readByte_counted m r).1.trans hbs) hstep
    refine ⟨m', _, run_cons_ok.2 ⟨_, _, resps, rfl, hrun, rfl⟩, ?_⟩
    unfold missed
    split_ifs with hl
    · rw [if_pos hl] at hcached
      simpa using hcached
    · rwa [if_neg hl] at hcached

/-- The TLB is a first-in-first-out cache of sixteen pages: after any run whose pages can be read no two
valid entries are for the same page, and the next request is counted in `tlbhits` if and only if its page
is among those of the sixteen last requests that missed the TLB. -/
theorem tlb_fifo (bs : BackingStore) {rs : List Request}
    (hio : ∀ r ∈ rs, ∃ page, bs.getPage (r.page.val * pageSize) pageSize r.io = .ok page) :
    ∃ m resps, run step (initial bs) rs = .ok (m, resps) ∧
      (∀ i j, (m.tlb.table i).valid = true → (m.tlb.table j).valid = true →
        (m.tlb.table i).pageNumber = (m.tlb.table j).pageNumber → i = j) ∧
      ∀ r : Request, (m.readByte r).1.tlbhits =
        if r.page ∈ held numberOfTlbEntries (missed (initial bs) rs) then m.tlbhits + 1 else m.tlbhits := by
  obtain ⟨m, resps, hrun, hcached⟩ := Cached.run hio rfl (Cached.initial bs)
  rw [List.nil_append] at hcached
  refine ⟨m, resps, hrun, ?_, ?_⟩
  · intro i j hi hj hpage
    exact hcached.written.unique hcached.entered.nodup (Tlb.slot_eq_some.2 ⟨hi, hpage⟩) (Tlb.slot_eq_some.2 ⟨hj, rfl⟩)
  · intro r
    rw [(readByte_counted m r).2]
    by_cases hl : m.tlb.lookup r.page = none
    · rw [if_pos hl, if_neg ((hcached.lookup_eq_none _).1 hl)]
    · rw [if_neg hl, if_pos (not_not.1 (mt (hcached.lookup_eq_none _).2 hl))]

/-- Two pages, the first of them asked for again. -/
theorem tlb_fifo_two_pages : ∃ m resps,
    run step (initial ⟨some ⟨65536, fun _ => 7⟩⟩) [.served 0, .served 256, .served 1] = .ok (m, resps) ∧
      (∀ i j, (m.tlb.table i).valid = true → (m.tlb.table j).valid = true →
        (m.tlb.table i).pageNumber = (m.tlb.table j).pageNumber → i = j) ∧
      ∀ r : Request, (m.readByte r).1.tlbhits =
        if r.page ∈ held numberOfTlbEntries (missed (initial ⟨some ⟨65536, fun _ => 7⟩⟩) [.served 0, .served 256, .served 1])
        then m.tlbhits + 1 else m.tlbhits :=
  tlb_fifo _ (by simp [Request.served, BackingStore.getPage, BackingStore.lseek])

end VirtualMemoryManager

end UnixSysProg.Vmm1
