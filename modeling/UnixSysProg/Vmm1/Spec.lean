/-
The complete specification of the `pa3_2` manager: pages get the frames 0, 1, 2, … in the order in
which they are first requested. At most 256 pages exist, so the eight-bit counter never comes back to
a frame in use, and with no page ever leaving memory neither the page table nor a TLB entry goes
stale.
-/
import UnixSysProg.Vmm1.Manager
import UnixSysProg.Lib.Rank
import UnixSysProg.Lib.Run
import Mathlib.Data.Fintype.Card

namespace UnixSysProg.Vmm1

open UnixSysProg.Lib UnixSysProg.Vmm

namespace VirtualMemoryManager

/-! ## The state after the pages `ps` were requested -/

/-- The pages requested so far are the valid ones, each in the frame of its rank with the store's
contents; the counter stands before the next frame, and every TLB entry agrees with the page table. -/
structure Ranked (f : StoreFile) (ps : List PageNumber) (m : VirtualMemoryManager) : Prop where
  store : m.backingStore = ⟨some f⟩
  valid : ∀ p, m.pageTable.Valid p ↔ p ∈ ps
  frame : ∀ p ∈ ps, (m.pageTable.frame p).val = rank ps p
  next : (m.physicalMemory.frameno.val + 1) % 256 = ps.toFinset.card % 256
  loaded : ∀ p ∈ ps, m.physicalMemory.frames (m.pageTable.frame p) = f.page (p.val * pageSize)
  tlb : m.tlb.All fun p g => p ∈ ps ∧ m.pageTable.frame p = g
  faults : m.pagefaults.toInt = ps.toFinset.card

namespace Ranked

variable {f : StoreFile} {ps : List PageNumber} {m : VirtualMemoryManager} {r : Request} {p : PageNumber}

theorem initial (f : StoreFile) : Ranked f [] (initial ⟨some f⟩) where
  store := rfl
  valid p := iff_of_false (fun hp => by cases hp) (by simp)
  frame p hp := by cases hp
  next := show (PhysicalMemory.initial.frameno.val + 1) % 256 = 0 by decide
  loaded p hp := by cases hp
  tlb := Tlb.all_initial _
  faults := show (0 : Int32).toInt = 0 by decide

/-- With a page still to come, fewer than 256 have been requested. -/
theorem card_lt (hp : p ∉ ps) : ps.toFinset.card < 256 := by
  have := Finset.card_lt_univ_of_notMem (s := ps.toFinset) (x := p) (by simpa using hp)
  simpa using this

theorem nextFrame_eq (h : Ranked f ps m) (hp : p ∉ ps) : m.nextFrame.val = ps.toFinset.card := by
  have := card_lt hp
  rw [nextFrame_val, h.next]; omega

theorem frame_ne_nextFrame (h : Ranked f ps m) (hp : p ∉ ps) {q : PageNumber} (hq : q ∈ ps) :
    m.pageTable.frame q ≠ m.nextFrame := fun he => by
  have h1 := h.frame q hq
  have h2 := rank_lt hq
  rw [he, h.nextFrame_eq hp] at h1
  omega

theorem again (h : Ranked f ps m) (hp : p ∈ ps) {m' : VirtualMemoryManager} (hs : m'.backingStore = m.backingStore)
    (ht : m'.pageTable = m.pageTable) (hpm : m'.physicalMemory = m.physicalMemory) (hf : m'.pagefaults = m.pagefaults)
    (htlb : m'.tlb.All fun q g => q ∈ ps ∧ m.pageTable.frame q = g) : Ranked f (ps ++ [p]) m' := by
  have hmem : ∀ q, q ∈ ps ++ [p] ↔ q ∈ ps := by
    intro q
    rw [List.mem_append, List.mem_singleton]
    exact ⟨fun hq => hq.elim id (· ▸ hp), .inl⟩
  have hcard := card_toFinset_concat_mem hp
  refine ⟨hs.trans h.store, ?_, ?_, ?_, ?_, ?_, ?_⟩
  · intro q
    rw [ht, hmem]; exact h.valid q
  · intro q hq
    rw [hmem] at hq; rw [ht, rank_append hq]; exact h.frame q hq
  · rw [hpm, hcard]; exact h.next
  · intro q hq
    rw [hmem] at hq; rw [hpm, ht]; exact h.loaded q hq
  · rw [ht]; exact htlb.mono fun q g hq => ⟨(hmem q).2 hq.1, hq.2⟩
  · rw [hf, hcard]; exact h.faults

theorem load (h : Ranked f ps m) (hp : p ∉ ps) : Ranked f (ps ++ [p]) (m.afterLoad p (f.page (p.val * pageSize))) := by
  have hlt := card_lt hp
  have hnext := h.nextFrame_eq hp
  have hcard := card_toFinset_concat_new hp
  have hfr := m.afterLoad_frame p (f.page (p.val * pageSize))
  have hmem : ∀ q, q ∈ ps ++ [p] ↔ q = p ∨ q ∈ ps := fun q => by rw [List.mem_append, List.mem_singleton, or_comm]
  have hne : ∀ q ∈ ps, q ≠ p := fun q hq he => hp (he ▸ hq)
  refine ⟨h.store, ?_, ?_, ?_, ?_, ?_, ?_⟩
  · intro q
    rw [afterLoad_valid, hmem, h.valid]
  · intro q hq
    rw [hfr]
    rcases (hmem q).1 hq with rfl | hq
    · rw [if_pos rfl, hnext, rank_concat_new hp]
    · rw [if_neg (hne q hq), rank_append hq]; exact h.frame q hq
  · rw [hcard]
    show (m.nextFrame.val + 1) % 256 = _
    rw [hnext]
  · intro q hq
    rw [hfr]
    rcases (hmem q).1 hq with rfl | hq
    · rw [if_pos rfl]; exact Function.update_self ..
    · rw [if_neg (hne q hq), ← h.loaded q hq]
      exact Function.update_of_ne (h.frame_ne_nextFrame hp hq) ..
  · refine Tlb.All.addEntry (h.tlb.mono fun q g hq => ?_) ?_
    · rw [hfr, if_neg (hne q hq.1)]
      exact ⟨(hmem q).2 (.inr hq.1), hq.2⟩
    · rw [hfr, if_pos rfl]
      exact ⟨(hmem p).2 (.inl rfl), rfl⟩
  · have hf := h.faults
    show (m.pagefaults + 1).toInt = _
    rw [toInt_incr (by omega), hf, hcard]
    omega

theorem loads (h : Ranked f ps m) (hr : r.Reads f) : m.getPage r = .ok (f.page (r.page.val * pageSize)) := by
  obtain ⟨f', hf', _, hok⟩ := getPage_readsAll hr
  cases hf'
  rw [getPage, h.store]
  exact hok

theorem readByte (h : Ranked f ps m) (hr : r.Reads f) : ∃ m',
    m.readByte r = (m', .ofFrame m'.physicalMemory.frames (m'.pageTable.frame r.page) r.address) ∧
      Ranked f (ps ++ [r.page]) m' := by
  cases hl : m.tlb.lookup r.page with
  | some g =>
    obtain ⟨hp, hg⟩ := Tlb.All.lookup h.tlb hl
    refine ⟨m.afterTlbHit, ?_, h.again hp rfl rfl rfl rfl h.tlb⟩
    rw [readByte_tlbHit hl, ← hg]
    rfl
  | none =>
    by_cases hp : r.page ∈ ps
    · refine ⟨_, readByte_pageHit hl ((h.valid _).2 hp), h.again hp rfl rfl rfl rfl ?_⟩
      exact h.tlb.addEntry ⟨hp, rfl⟩
    · refine ⟨_, ?_, h.load hp⟩
      rw [readByte_loaded hl (fun hv => hp ((h.valid _).1 hv)) (h.loads hr), afterLoad_frame, if_pos rfl]
      rfl

/-- The answer is the store's byte, at the page's rank. -/
theorem answer (h : Ranked f ps m) (hp : r.page ∈ ps) :
    Delivers f r (.ofFrame m.physicalMemory.frames (m.pageTable.frame r.page) r.address) ∧
      (physicalAddressOf (m.pageTable.frame r.page) (getOffsetFromLogicalAddress r.address)).toNat =
        256 * rank ps r.page + r.address.toNat % 256 := by
  refine ⟨delivers_ofFrame (h.loaded _ hp), ?_⟩
  rw [physicalAddressOf_toNat _ (getOffsetFromLogicalAddress_lt _), h.frame _ hp, getOffsetFromLogicalAddress_eq]

end Ranked

/-! ## Runs -/

/-- The response to a request of the sequence `ps` of pages: the store's byte, at the rank of its page. -/
def AnsweredAt (f : StoreFile) (ps : List PageNumber) (r : Request) (resp : Response) : Prop :=
  Delivers f r resp ∧ ∃ physicalAddress : PhysicalAddress, resp.physicalAddress = some physicalAddress ∧
    physicalAddress.toNat = 256 * rank ps r.page + r.address.toNat % 256

/-- The complete behaviour of the manager: over a store of at least 65536 bytes whose seeks and reads
succeed, every request succeeds with the store's byte, at 256 times the number of distinct pages first
requested before its own, plus the offset; and the page faults are the distinct pages requested. -/
theorem readByte_complete {f : StoreFile} (hf : 65536 ≤ f.size) {rs : List Request} (hio : ∀ r ∈ rs, r.io.Succeeds) :
    ∃ m resps, run step (initial ⟨some f⟩) rs = .ok (m, resps) ∧
      List.Forall₂ (AnsweredAt f (rs.map Request.page)) rs resps ∧
      m.pagefaults.toInt = (rs.map Request.page).toFinset.card := by
  obtain ⟨m, resps, hr, hR, hA⟩ := run_total
    (P := fun pre os m => Ranked f (pre.map Request.page) m ∧
      List.Forall₂ (AnsweredAt f (rs.map Request.page)) pre os)
    (fun pre r post os m hall ⟨hR, hA⟩ _ => by
      obtain ⟨m', hr, hR'⟩ := hR.readByte (Request.reads_of_succeeds hf (hio r (by rw [hall]; simp)))
      rw [← List.map_singleton, ← List.map_append] at hR'
      have hp : r.page ∈ (pre ++ [r]).map Request.page := List.mem_map.2 ⟨r, by simp, rfl⟩
      obtain ⟨hd, ha⟩ := hR'.answer hp
      refine ⟨m', _, by rw [step, hr], hR', List.rel_append hA (.cons ⟨hd, _, rfl, ?_⟩ .nil)⟩
      -- later requests do not change the rank
      rw [ha, hall, ← rank_append hp (post.map Request.page), ← List.map_append, List.append_assoc]
      rfl)
    ⟨Ranked.initial f, .nil⟩ (along_true step rs _)
  exact ⟨m, resps, hr, hA, hR.faults⟩

theorem readByte_complete_two_pages : ∃ m resps,
    run step (initial ⟨some ⟨65536, fun _ => 7⟩⟩) [.served 513, .served 0, .served 512] = .ok (m, resps) ∧
      List.Forall₂ (AnsweredAt ⟨65536, fun _ => 7⟩ ([Request.served 513, .served 0, .served 512].map Request.page))
        [.served 513, .served 0, .served 512] resps ∧
      m.pagefaults.toInt = ([Request.served 513, .served 0, .served 512].map Request.page).toFinset.card :=
  readByte_complete (by decide) (by simp [Request.served_succeeds])

end VirtualMemoryManager

end UnixSysProg.Vmm1
