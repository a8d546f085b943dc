/-
Frame ownership over whole runs of `pa3_3/VMM2`: as long as the `int` clock of the strategy has not
reached its limit the valid pages carry distinct stamps below it (`Ticking`), so a victim search
always finds a page; a request advances the clock by at most three, and fewer than 2^29 requests
stay clear of the limit. With the frame invariant this gives every run, under any backing-store
failures, a partition of the frames between the valid pages and the free stack.
-/
import UnixSysProg.Vmm2.Step

namespace UnixSysProg.Vmm2

open UnixSysProg.Lib UnixSysProg.Vmm

/-! ## The clock -/

/-- The valid pages carry distinct stamps below the clock, and the clock is at most `c`. -/
structure Ticking (t : PageTable) (c : Int) : Prop where
  stamped : Stamped t.Valid t.stamp t.clock.toInt
  le : t.clock.toInt ≤ c

namespace Ticking

variable {t : PageTable} {c : Int}

theorem incr (h : Ticking t c) (hc : c < 2 ^ 31 - 1) : (t.clock + 1).toInt = t.clock.toInt + 1 :=
  toInt_incr (by have := h.le; omega)

theorem initial (s : ReplacementStrategy) : Ticking (.initial s) 0 := by
  have hnone : ∀ p, ¬ (PageTable.initial s).Valid p := fun p hp => by cases hp
  refine ⟨⟨fun p hp => absurd hp (hnone p), fun p _ hp => absurd hp (hnone p)⟩, ?_⟩
  cases s <;> decide

theorem mono {c' : Int} (h : Ticking t c) (hc : c ≤ c') : Ticking t c' := ⟨h.stamped, le_trans h.le hc⟩

theorem access (h : Ticking t c) (hc : c < 2 ^ 31 - 1) (p : PageNumber) : Ticking (t.accessPage p) (c + 1) := by
  obtain ⟨hs, hk⟩ := t.accessPage_stamp p
  have hi := h.incr hc
  have hle := h.le
  constructor
  · rw [PageTable.accessPage_valid, hs, hk]
    split
    · rw [hi]
      by_cases hp : t.Valid p
      · exact h.stamped.touch (by omega) p (fun q hq => .inl hq)
      · exact h.stamped.touch_outside (by omega) hp
    · exact h.stamped
  · rw [hk]
    split
    · rw [hi]; omega
    · omega

theorem update (h : Ticking t c) (hc : c < 2 ^ 31 - 1) (e : PageEntry) (p : PageNumber) :
    Ticking (t.updatePageEntry e p) (c + 1) := by
  obtain ⟨hs, hk⟩ := t.updatePageEntry_stamp e p
  have hi := h.incr hc
  have hle := h.le
  refine ⟨?_, by rw [hk, hi]; omega⟩
  rw [hs, hk, hi]
  refine h.stamped.touch (by omega) p fun q hq => ?_
  rw [PageTable.updatePageEntry_valid] at hq
  split at hq
  · rename_i hqp; exact .inr hqp
  · exact .inl hq

/-- A valid page is enough for the search to find a victim. -/
theorem victim (h : Ticking t c) (hc : c < 2 ^ 31 - 1) {p : PageNumber} (hp : t.Valid p) : ∃ v, t.victim = some v :=
  PageTable.victim_isSome.2 ⟨p, hp, by rw [h.incr hc]; have := h.stamped.below p hp; omega⟩

/-- Under LRU an access makes the page the newest, valid or not. -/
theorem newest_access (h : Ticking t c) (hs : t.strategy = .lru) (p : PageNumber) :
    Newest t.Valid t.stamp (t.accessPage p).Valid (t.accessPage p).stamp p := by
  intro q hq hqp
  rw [PageTable.accessPage_valid] at hq
  rw [(t.accessPage_stamp p).1, if_pos hs, Function.update_of_ne hqp, Function.update_self]
  exact ⟨hq, rfl, h.stamped.below q hq⟩

/-- An update makes the page the newest among what the table `t` has kept of `V` and `s`. -/
theorem newest_update (h : Ticking t c) {V : PageNumber → Prop} {s : PageNumber → Int} {e : PageEntry} {p : PageNumber}
    (hkept : ∀ q, t.Valid q → q ≠ p → V q ∧ t.stamp q = s q) :
    Newest V s (t.updatePageEntry e p).Valid (t.updatePageEntry e p).stamp p := by
  intro q hq hqp
  rw [PageTable.updatePageEntry_valid, if_neg hqp] at hq
  obtain ⟨hv, he⟩ := hkept q hq hqp
  rw [(t.updatePageEntry_stamp e p).1, Function.update_of_ne hqp, Function.update_self, ← he]
  exact ⟨hv, rfl, h.stamped.below q hq⟩

end Ticking

theorem PageTable.accessPage_stamp_ne (t : PageTable) {p q : PageNumber} (h : q ≠ p) :
    (t.accessPage p).stamp q = t.stamp q := by
  rw [(t.accessPage_stamp p).1]
  split
  · exact Function.update_of_ne h ..
  · rfl

namespace VirtualMemoryManager

/-! ## One request -/

theorem victimFound {m : VirtualMemoryManager} {c : Int} (h : FrameInv m) (ht : Ticking m.pageTable c)
    (hc : c + 1 < 2 ^ 31 - 1) (hs : m.workingSet.set = []) (p : PageNumber) :
    ∃ v, (m.pageTable.accessPage p).victim = some v := by
  have hpos : 0 < residents m.pageTable := by rw [h.full hs]; have := h.pos; omega
  obtain ⟨q, hq⟩ := exists_valid hpos
  exact (ht.access (by omega) p).victim hc (by rwa [PageTable.accessPage_valid])

theorem ticking_access {m m' : VirtualMemoryManager} {r : Request} {resp : Response} {c : Int}
    (ht : Ticking m.pageTable c) (hc : c + 2 < 2 ^ 31 - 1) (ha : Access m r m' resp) : Ticking m'.pageTable (c + 3) := by
  have h1 := ht.access (by omega) r.page
  cases ha with
  | tlbHit _ => exact h1.mono (by omega)
  | pageHit _ _ => exact h1.mono (by omega)
  | failed _ _ _ => exact h1.mono (by omega)
  | freeFrame _ _ _ _ => exact (h1.update (by omega) _ _).mono (by omega)
  | eviction _ _ _ _ _ => exact ((h1.update (by omega) _ _).update (by omega) _ _).mono (by omega)

/-- A load makes the page the newest, under both strategies. -/
theorem newest_freeLoad {m : VirtualMemoryManager} {c : Int} (ht : Ticking m.pageTable c) (hc : c < 2 ^ 31 - 1)
    (p : PageNumber) (page : Page) (f : FrameNumber) (ws : WorkingSet) :
    Newest m.pageTable.Valid m.pageTable.stamp (m.afterLoad p page f ws (m.pageTable.accessPage p)).pageTable.Valid
      (m.afterLoad p page f ws (m.pageTable.accessPage p)).pageTable.stamp p := by
  refine (ht.access hc p).newest_update fun q hq hqp => ⟨?_, m.pageTable.accessPage_stamp_ne hqp⟩
  rwa [PageTable.accessPage_valid] at hq

theorem newest_evictionLoad {m : VirtualMemoryManager} {c : Int} (ht : Ticking m.pageTable c)
    (hc : c + 1 < 2 ^ 31 - 1) (p v : PageNumber) (page : Page) (f : FrameNumber) (ws : WorkingSet) :
    Newest m.pageTable.Valid m.pageTable.stamp (m.afterLoad p page f ws (m.evictedTable p v)).pageTable.Valid
      (m.afterLoad p page f ws (m.evictedTable p v)).pageTable.stamp p := by
  refine ((ht.access (by omega) p).update hc _ v).newest_update fun q hq hqp => ?_
  obtain ⟨hv, hqv⟩ := (evictedTable_valid m p v q).1 hq
  refine ⟨hv, ?_⟩
  rw [(PageTable.updatePageEntry_stamp _ _ v).1, Function.update_of_ne hqv]
  exact m.pageTable.accessPage_stamp_ne hqp

/-- Under LRU every request makes its page the newest. -/
theorem Access.newest {m m' : VirtualMemoryManager} {r : Request} {resp : Response} {c : Int}
    (ha : Access m r m' resp) (hs : m.pageTable.strategy = .lru) (ht : Ticking m.pageTable c)
    (hc : c + 1 < 2 ^ 31 - 1) :
    Newest m.pageTable.Valid m.pageTable.stamp m'.pageTable.Valid m'.pageTable.stamp r.page := by
  cases ha with
  | tlbHit _ => exact ht.newest_access hs r.page
  | pageHit _ _ => exact ht.newest_access hs r.page
  | failed _ _ _ => exact ht.newest_access hs r.page
  | freeFrame _ _ _ _ => exact newest_freeLoad ht (by omega) r.page _ _ _
  | eviction _ _ _ _ _ => exact newest_evictionLoad ht hc r.page _ _ _ _

/-- A request on a manager whose clock has room succeeds in one of the ways of `Access`, keeps the
frame invariant and advances the clock by at most three. -/
theorem readByte_step {m : VirtualMemoryManager} {c : Int} (h : FrameInv m) (ht : Ticking m.pageTable c)
    (hc : c + 2 < 2 ^ 31 - 1) (r : Request) :
    ∃ m' resp, m.readByte r = .ok (m', resp) ∧ Access m r m' resp ∧ FrameInv m' ∧ Ticking m'.pageTable (c + 3) := by
  obtain ⟨m', resp, hr, ha⟩ := readByte_access h r fun _ _ hs => victimFound h ht (by omega) hs r.page
  exact ⟨m', resp, hr, ha, h.access ha, ticking_access ht hc ha⟩

/-! ## Runs -/

/-- A manager built with these parameters, at any later time. -/
structure Config (n : Int) (s : ReplacementStrategy) (bs : BackingStore) (m : VirtualMemoryManager) : Prop where
  frames : m.numberOfFramesInPm = n
  store : m.backingStore = bs
  strategy : m.pageTable.strategy = s

theorem Config.access {n : Int} {s : ReplacementStrategy} {bs : BackingStore} {m m' : VirtualMemoryManager}
    {r : Request} {resp : Response} (h : Config n s bs m) (ha : Access m r m' resp) : Config n s bs m' := by
  obtain ⟨h1, h2, h3⟩ := ha.config
  exact ⟨h1.trans h.frames, h2.trans h.store, h3.trans h.strategy⟩

/-- The run rule: fewer than 2^29 requests on a fresh manager go through, and a history invariant
that every `Access` step keeps holds at the end, along with the frame invariant. -/
theorem run_access {n : Int} (hn : 1 ≤ n) (s : ReplacementStrategy) (bs : BackingStore) {rs : List Request}
    (hlen : rs.length < 2 ^ 29) {P : List Request → List Response → VirtualMemoryManager → Prop}
    (h0 : P [] [] (initial n s bs))
    (hstep : ∀ pre r post os m m' resp, rs = pre ++ r :: post → FrameInv m → Ticking m.pageTable (3 * (pre.length : Int)) →
      Config n s bs m → P pre os m → Access m r m' resp → P (pre ++ [r]) (os ++ [resp]) m') :
    ∃ m resps, run readByte (initial n s bs) rs = .ok (m, resps) ∧ FrameInv m ∧
      Ticking m.pageTable (3 * (rs.length : Int)) ∧ Config n s bs m ∧ P rs resps m := by
  obtain ⟨m, resps, hr, hP⟩ := run_total
    (P := fun pre os m => FrameInv m ∧ Ticking m.pageTable (3 * (pre.length : Int)) ∧ Config n s bs m ∧ P pre os m)
    (fun pre r post os m hall ⟨hf, ht, hc, hp⟩ _ => by
      have hl : pre.length + 1 ≤ rs.length := by rw [hall]; simp
      obtain ⟨m', resp, hr, ha, hf', ht'⟩ := readByte_step hf ht (by omega) r
      refine ⟨m', resp, hr, hf', ?_, hc.access ha, hstep pre r post os m m' resp hall hf ht hc hp ha⟩
      have : (3 * ((pre ++ [r]).length : Int)) = 3 * (pre.length : Int) + 3 := by simp; omega
      rw [this]; exact ht')
    ⟨frameInv_initial hn s bs, Ticking.initial s, ⟨rfl, rfl, rfl⟩, h0⟩ (along_true readByte rs _)
  exact ⟨m, resps, hr, hP⟩

/-- Who owns the frames of a manager, and what follows for the next page fault. -/
structure FrameOwnership (m : VirtualMemoryManager) : Prop where
  /-- No two valid entries name the same frame. -/
  distinct : ∀ p q, m.pageTable.Valid p → m.pageTable.Valid q → m.pageTable.frame p = m.pageTable.frame q → p = q
  bounded : ∀ p, m.pageTable.Valid p → ((m.pageTable.frame p).val : Int) < min m.numberOfFramesInPm 256
  /-- No frame on the free stack is owned. -/
  free : ∀ p, m.pageTable.Valid p → ((m.pageTable.frame p).val : Int) ∉ m.workingSet.set
  count : (residents m.pageTable : Int) + m.workingSet.set.length = m.numberOfFramesInPm
  /-- A fault that finds no free frame finds a victim, and looking its frame up finds the victim. -/
  victim : ∀ p, m.workingSet.set = [] → ∃ v, (m.pageTable.accessPage p).victim = some v ∧
    (m.pageTable.accessPage p).findVictim = .ok ((m.pageTable.accessPage p).frame v) ∧
    (m.pageTable.accessPage p).rlookup ((m.pageTable.accessPage p).frame v) =
      some (v, (m.pageTable.accessPage p).table v)
  /-- The frame acquired for a faulting page is one that `loadFrame` accepts. -/
  accepted : ∀ p page, ¬ m.pageTable.Valid p → ∃ m' f, (m.afterFailure p).acquireFrame = .ok (m', f) ∧
    m'.physicalMemory.loadFrame m'.numberOfFramesInPm f page ≠ none

theorem FrameInv.ownership {m : VirtualMemoryManager} {c : Int} (h : FrameInv m) (ht : Ticking m.pageTable c)
    (hc : c + 1 < 2 ^ 31 - 1) : FrameOwnership m := by
  have hle := h.le
  have hpos := h.pos
  have hvict : ∀ p, m.workingSet.set = [] → ∃ v, (m.pageTable.accessPage p).victim = some v :=
    fun p hs => victimFound h ht hc hs p
  refine ⟨h.inj, ?_, ?_, ?_, ?_, ?_⟩
  · intro p hp
    have := h.below p hp; have := (m.pageTable.frame p).isLt
    omega
  · intro p hp hmem
    rw [h.free] at hmem
    obtain ⟨j, hj, he⟩ := List.mem_map.1 hmem
    have := h.below p hp
    rw [List.mem_range'_1] at hj
    omega
  · have := congrArg List.length h.free
    rw [List.length_map, List.length_range'] at this
    omega
  · intro p hs
    obtain ⟨v, hv⟩ := hvict p hs
    exact ⟨v, hv, by rw [PageTable.findVictim_eq, hv], h.rlookup (victim_valid hv)⟩
  · intro p page hp
    cases hs : m.workingSet.set with
    | cons top rest =>
      obtain ⟨htop, hlt, _⟩ := h.free_cons hs
      have hf : ∃ f : FrameNumber, (f.val : Int) = top := ⟨⟨residents m.pageTable, residents_lt hp⟩, htop.symm⟩
      obtain ⟨f, rfl⟩ := hf
      refine ⟨_, f, acquireFrame_free (m := m.afterFailure p) hs, ?_⟩
      exact PhysicalMemory.loadFrame_ne_none _ (show (f.val : Int) < m.numberOfFramesInPm by omega) page
    | nil =>
      obtain ⟨v, hv⟩ := hvict p hs
      refine ⟨_, _, acquireFrame_eviction (m := m.afterFailure p) hs hv (h.rlookup (victim_valid hv)), ?_⟩
      have hlt : (((m.afterFailure p).pageTable.frame v).val : Int) < m.numberOfFramesInPm := by
        rw [show (m.afterFailure p).pageTable.frame v = m.pageTable.frame v from PageTable.accessPage_frame _ _ _]
        exact h.frame_lt (victim_valid hv)
      exact PhysicalMemory.loadFrame_ne_none _ hlt page

/-- Frame ownership: with at least one frame, either strategy, any backing store and any kernel
answers, every run of fewer than 2^29 requests goes through, and in the state it reaches the frames
are partitioned between the valid pages and the free stack, every victim's frame leads back to the
victim and no frame is refused. -/
theorem frame_ownership {n : Int} (hn : 1 ≤ n) (s : ReplacementStrategy) (bs : BackingStore) {rs : List Request}
    (hlen : rs.length < 2 ^ 29) :
    ∃ m resps, run readByte (initial n s bs) rs = .ok (m, resps) ∧ m.numberOfFramesInPm = n ∧ FrameOwnership m := by
  obtain ⟨m, resps, hr, hf, ht, hc, _⟩ := run_access hn s bs hlen (P := fun _ _ _ => True) trivial
    fun _ _ _ _ _ _ _ _ _ _ _ _ _ => trivial
  exact ⟨m, resps, hr, hc.frames, hf.ownership ht (by omega)⟩

/-- One frame, and a second page that takes it from the first. -/
theorem frame_ownership_one_frame :
    ∃ m resps, run readByte (initial 1 .lru ⟨some ⟨512, fun _ => 7⟩⟩) [.served 0, .served 256] = .ok (m, resps) ∧
      m.numberOfFramesInPm = 1 ∧ FrameOwnership m :=
  frame_ownership (by decide) .lru ⟨some ⟨512, fun _ => 7⟩⟩ (by decide)

end VirtualMemoryManager

end UnixSysProg.Vmm2
