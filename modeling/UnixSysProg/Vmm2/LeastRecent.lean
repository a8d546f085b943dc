/-
LRU by the history of the requests: the stamps rank the valid pages as the requests for them do, so the
page that has to go is the one whose last request lies farthest back. Nothing but the valid pages has to
be ranked, which is why the stamps of failed requests and of pages that only the TLB still knows do not
matter.
-/
import UnixSysProg.Vmm2.Inclusion

namespace UnixSysProg.Vmm2

open UnixSysProg.Lib UnixSysProg.Vmm

/-! ## The last request for a page -/

/-- The number of the last request for page `p`, counted from one; zero when there was none. -/
def lastRequest (rs : List Request) (p : PageNumber) : Nat := rs.length - rs.reverse.findIdx (·.page = p)

theorem lastRequest_le (rs : List Request) (p : PageNumber) : lastRequest rs p ≤ rs.length := Nat.sub_le _ _

theorem lastRequest_concat (rs : List Request) (r : Request) (p : PageNumber) :
    lastRequest (rs ++ [r]) p = if p = r.page then rs.length + 1 else lastRequest rs p := by
  unfold lastRequest
  rw [List.reverse_append, List.length_append, List.reverse_singleton, List.singleton_append, List.findIdx_cons]
  by_cases h : r.page = p
  · simp [h]
  · have : ¬ p = r.page := fun he => h he.symm
    simp [h, this]

namespace VirtualMemoryManager

/-! ## The counter -/

/-- Under LRU a request advances `accessno` by one, two or three. -/
theorem Access.accessno {m m' : VirtualMemoryManager} {r : Request} {resp : Response} {c : Int}
    (ha : Access m r m' resp) (hs : m.pageTable.strategy = .lru) (ht : Ticking m.pageTable c) (hc : c + 2 < 2 ^ 31 - 1) :
    m.pageTable.accessno.toInt < m'.pageTable.accessno.toInt ∧
      m'.pageTable.accessno.toInt ≤ m.pageTable.accessno.toInt + 3 := by
  have hclock : ∀ t : PageTable, t.strategy = .lru → t.clock = t.accessno := by
    intro t hs
    unfold PageTable.clock
    rw [hs]
  have h1 := ht.access (by omega) r.page
  have e1 := ht.incr (by omega)
  have e2 := h1.incr (by omega)
  have k1 := (m.pageTable.accessPage_stamp r.page).2
  rw [if_pos hs] at k1
  rw [← hclock m.pageTable hs, ← hclock m'.pageTable (ha.config.2.2.trans hs)]
  rw [k1] at e2
  cases ha with
  | tlbHit _ | pageHit _ _ | failed _ _ _ =>
    show _ < (m.pageTable.accessPage r.page).clock.toInt ∧ (m.pageTable.accessPage r.page).clock.toInt ≤ _
    rw [k1]
    omega
  | freeFrame _ _ _ _ =>
    unfold afterLoad
    rw [(PageTable.updatePageEntry_stamp _ _ _).2, k1]
    omega
  | @eviction _ v _ _ _ _ _ =>
    have h2 := h1.update (by omega) { (m.pageTable.accessPage r.page).table v with isValid := false } v
    have e3 := h2.incr (by omega)
    rw [(PageTable.updatePageEntry_stamp _ _ _).2, k1] at e3
    unfold afterLoad evictedTable
    rw [(PageTable.updatePageEntry_stamp _ _ _).2, (PageTable.updatePageEntry_stamp _ _ _).2, k1]
    omega

/-! ## The order of the valid pages -/

/-- The state after the requests `rs` under LRU: the valid pages were requested, and their stamps rank
them as their last requests do. -/
structure Recent (rs : List Request) (m : VirtualMemoryManager) : Prop where
  order : SameOrder m.pageTable.Valid m.pageTable.stamp fun p => (lastRequest rs p : Int)
  nonneg : 0 ≤ m.pageTable.accessno.toInt

theorem Recent.initial (n : Int) (bs : BackingStore) : Recent [] (initial n .lru bs) := by
  constructor
  · intro p q hp
    cases hp
  · exact (show 0 ≤ (0 : Int32).toInt by decide)

theorem Recent.access {m m' : VirtualMemoryManager} {rs : List Request} {r : Request} {resp : Response} {c : Int}
    (h : Recent rs m) (ha : Access m r m' resp) (hs : m.pageTable.strategy = .lru) (ht : Ticking m.pageTable c)
    (hc : c + 2 < 2 ^ 31 - 1) : Recent (rs ++ [r]) m' := by
  have hnew := ha.newest hs ht (by omega)
  constructor
  · refine h.order.newest (W := m.pageTable.Valid) hnew (fun q hq hqp => ?_) fun q hq => hq
    have hle := lastRequest_le rs q
    dsimp only
    rw [lastRequest_concat, lastRequest_concat, if_neg hqp, if_pos rfl]
    exact ⟨(hnew q hq hqp).1, rfl, by omega⟩
  · have := (ha.accessno hs ht hc).1
    have := h.nonneg
    omega

/-- The page that LRU evicts is the one requested least recently. -/
theorem Recent.victim {m : VirtualMemoryManager} {rs : List Request} {c : Int} {v : PageNumber} (h : Recent rs m)
    (ht : Ticking m.pageTable c) (hv : Oldest m.pageTable.Valid m.pageTable.stamp v) {q : PageNumber}
    (hq : m.pageTable.Valid q) (hne : q ≠ v) : lastRequest rs v < lastRequest rs q := by
  have hlt : m.pageTable.stamp v < m.pageTable.stamp q := by
    refine lt_of_le_of_ne (hv.2 q hq) fun he => ?_
    exact hne (ht.stamped.inj v q hv.1 hq he).symm
  exact Int.ofNat_lt.1 ((h.order v q hv.1 hq).1 hlt)

/-! ## Runs -/

/-- LRU evicts the least recently requested page: after any requests `rs`, when `r` faults and no frame is
free, its page takes the frame of the valid page whose last request is the earliest, that page becomes
invalid, and no other page is touched; and `accessno` does not overflow. -/
theorem lru_evicts_least_recent {n : Int} (hn : 1 ≤ n) (bs : BackingStore) {rs : List Request} (r : Request)
    (hlen : rs.length + 1 < 2 ^ 29) :
    ∃ m resps m' resp, run readByte (initial n .lru bs) rs = .ok (m, resps) ∧ m.readByte r = .ok (m', resp) ∧
      (0 ≤ m.pageTable.accessno.toInt ∧ m.pageTable.accessno.toInt + 3 < 2 ^ 31 - 1 ∧
        m.pageTable.accessno.toInt < m'.pageTable.accessno.toInt ∧
        m'.pageTable.accessno.toInt ≤ m.pageTable.accessno.toInt + 3) ∧
      ∀ page, m.tlb.lookup r.page = none → ¬ m.pageTable.Valid r.page → m.getPage r = .ok page →
        m.workingSet.isFreeFrame = false → ∃ v, m.pageTable.Valid v ∧
          (∀ q, m.pageTable.Valid q → q ≠ v → lastRequest rs v < lastRequest rs q) ∧
          (∀ q, m'.pageTable.Valid q ↔ q = r.page ∨ (m.pageTable.Valid q ∧ q ≠ v)) ∧
          ∀ q, m'.pageTable.frame q = if q = r.page then m.pageTable.frame v else m.pageTable.frame q := by
  obtain ⟨m, resps, hrun, hinv, hticking, hconfig, hrecent⟩ := run_access hn .lru bs (show rs.length < 2 ^ 29 by omega)
    (P := fun pre _ m => Recent pre m) (Recent.initial n bs)
    fun pre r post os m m' resp hall _ ht hc h ha => h.access ha hc.strategy ht (by
      have : pre.length + 1 ≤ rs.length := by rw [hall]; simp
      omega)
  obtain ⟨m', resp, hstep, ha, _, _⟩ := readByte_step hinv hticking (by omega) r
  obtain ⟨hlt, hle⟩ := ha.accessno hconfig.strategy hticking (by omega)
  have hbound : m.pageTable.accessno.toInt ≤ 3 * (rs.length : Int) := by
    have := hticking.le
    unfold PageTable.clock at this
    rwa [hconfig.strategy] at this
  refine ⟨m, resps, m', resp, hrun, hstep, ⟨hrecent.nonneg, by omega, hlt, hle⟩, ?_⟩
  intro page hmiss hinvalid hpage hfull
  cases ha with
  | tlbHit hl => rw [hmiss] at hl; cases hl
  | pageHit _ hv => exact absurd hv hinvalid
  | failed _ _ he => rw [hpage] at he; cases he
  | freeFrame _ _ _ hs => simp [WorkingSet.isFreeFrame, hs] at hfull
  | @eviction _ v _ _ _ _ hvict =>
    have hold := victim_oldest_of_fault hinvalid hvict
    refine ⟨v, hold.1, fun q hq hne => hrecent.victim hticking hold hq hne, ?_, ?_⟩
    · intro q
      rw [afterLoad_valid, evictedTable_valid]
    · intro q
      rw [afterLoad_frame, evictedTable_frame]

/-- Two frames: page 0 is requested again after page 1, so page 2 takes the frame of page 1. -/
theorem lru_evicts_least_recent_two_frames : ∃ m resps m' resp,
    run readByte (initial 2 .lru ⟨some ⟨65536, fun _ => 7⟩⟩) [.served 0, .served 256, .served 1] = .ok (m, resps) ∧
      m.readByte (.served 512) = .ok (m', resp) ∧ m'.pageTable.Valid 0 ∧ ¬ m'.pageTable.Valid 1 ∧ m'.pageTable.Valid 2 ∧
      m'.pageTable.frame 2 = m.pageTable.frame 1 := by
  obtain ⟨m, resps, m', resp, hrun, hstep, _, hevict⟩ := lru_evicts_least_recent (n := 2) (by decide)
    ⟨some ⟨65536, fun _ => 7⟩⟩ (.served 512)
    (show [Request.served 0, .served 256, .served 1].length + 1 < 2 ^ 29 by decide)
  have hstate : (run readByte (initial 2 .lru ⟨some ⟨65536, fun _ => 7⟩⟩) [.served 0, .served 256, .served 1]).toOption.map
      (fun x => (x.1.tlb.lookup 2, x.1.workingSet.isFreeFrame, decide (∀ q, x.1.pageTable.Valid q ↔ q = 0 ∨ q = 1),
        (x.1.getPage (.served 512)).isOk)) = some (none, false, true, true) := by decide +kernel
  rw [hrun] at hstate
  simp only [Except.toOption, Option.map_some, Option.some.injEq, Prod.mk.injEq, decide_eq_true_eq] at hstate
  obtain ⟨hl, hfull, hvalid, hok⟩ := hstate
  obtain ⟨page, hget⟩ : ∃ page, m.getPage (.served 512) = .ok page := by
    cases hg : m.getPage (.served 512) with
    | error e => rw [hg] at hok; cases hok
    | ok page => exact ⟨page, rfl⟩
  have hpage : (Request.served 512).page = 2 := by decide
  obtain ⟨v, hv, hold, hafter, hframe⟩ := hevict page (by rwa [hpage]) (by rw [hpage, hvalid]; decide) hget hfull
  -- page 0 is not the victim
  have hone : v = 1 := by
    refine ((hvalid v).1 hv).resolve_left ?_
    rintro rfl
    exact absurd (hold 1 ((hvalid 1).2 (.inr rfl)) (by decide)) (by decide)
  rw [hone] at hafter hframe
  refine ⟨m, resps, m', resp, hrun, hstep, ?_, ?_, ?_, ?_⟩
  · exact (hafter 0).2 (.inr ⟨(hvalid 0).2 (.inl rfl), by decide⟩)
  · rw [hafter, hpage]
    simp
  · exact (hafter 2).2 (.inl hpage.symm)
  · rw [hframe, if_pos hpage.symm]

end VirtualMemoryManager

end UnixSysProg.Vmm2
