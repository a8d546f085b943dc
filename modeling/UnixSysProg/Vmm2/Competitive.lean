/-
How far from the optimum the two strategies are. Both drop the page stamped longest ago, LRU by its last
use and Fifo by its loading, and a hit never makes a page older; that is all it takes for at most `n` page
faults in a window of requests for at most `n` pages, and with it for the competitive ratio. The TLB does
not disturb this: a page that only the TLB still knows is served without a fault and loads nothing.
-/
import UnixSysProg.Vmm2.Inclusion
import UnixSysProg.Vmm2.Paging
import UnixSysProg.Lib.Competitive

namespace UnixSysProg.Vmm2

open UnixSysProg.Lib UnixSysProg.Vmm

/-! ## The page table as a cache -/

/-- The pages whose entries are valid. -/
def validPages (t : PageTable) : Finset PageNumber := Finset.univ.filter t.Valid

@[simp] theorem mem_validPages {t : PageTable} {p : PageNumber} : p ∈ validPages t ↔ t.Valid p := by
  simp [validPages]

theorem validPages_congr {t u : PageTable} (h : ∀ q, u.Valid q ↔ t.Valid q) : validPages u = validPages t := by
  ext q
  rw [mem_validPages, mem_validPages, h]

theorem validPages_insert {t u : PageTable} {p : PageNumber} (h : ∀ q, u.Valid q ↔ q = p ∨ t.Valid q) :
    validPages u = insert p (validPages t) := by
  ext q
  rw [Finset.mem_insert, mem_validPages, mem_validPages, h]

theorem validPages_swap {t u : PageTable} {p v : PageNumber} (h : ∀ q, u.Valid q ↔ q = p ∨ (t.Valid q ∧ q ≠ v)) :
    validPages u = insert p ((validPages t).erase v) := by
  ext q
  rw [Finset.mem_insert, Finset.mem_erase, mem_validPages, mem_validPages, h, and_comm]

/-- Looking a page up stamps nothing but the page, and that not with an older stamp if it is valid. -/
theorem Ticking.served_access {t : PageTable} {c : Int} (ht : Ticking t c) (k : Nat) (p : PageNumber) :
    Served k (validPages t) t.stamp p (validPages (t.accessPage p)) (t.accessPage p).stamp false := by
  have hsame : validPages (t.accessPage p) = validPages t := validPages_congr fun q => by rw [PageTable.accessPage_valid]
  rw [hsame]
  refine .hit (fun q hqp => t.accessPage_stamp_ne hqp) fun hp => ?_
  rw [mem_validPages] at hp
  rw [(t.accessPage_stamp p).1]
  split
  · rw [Function.update_self]
    exact (ht.stamped.below p hp).le
  · exact le_refl _

namespace VirtualMemoryManager

variable {m m' : VirtualMemoryManager} {r : Request} {resp : Response} {c : Int}

/-- Both strategies serve a request as a cache does that drops the oldest. -/
theorem Access.served (ha : Access m r m' resp) (hi : FrameInv m) (ht : Ticking m.pageTable c) (hc : c + 1 < 2 ^ 31 - 1)
    (hg : ∃ page, m.getPage r = .ok page) : ∃ b, Served m.numberOfFramesInPm.toNat (validPages m.pageTable)
      m.pageTable.stamp r.page (validPages m'.pageTable) m'.pageTable.stamp b ∧
      m'.pagefaults = if b then m.pagefaults + 1 else m.pagefaults := by
  have hacc : ∀ q, (m.pageTable.accessPage r.page).Valid q ↔ m.pageTable.Valid q := by
    intro q
    rw [PageTable.accessPage_valid]
  cases ha with
  | tlbHit hl => exact ⟨false, ht.served_access _ r.page, rfl⟩
  | pageHit _ hv => exact ⟨false, ht.served_access _ r.page, rfl⟩
  | failed _ _ he =>
    obtain ⟨page, hok⟩ := hg
    rw [hok] at he
    cases he
  | @freeFrame page f rest _ hp _ _ =>
    refine ⟨true, ?_, rfl⟩
    have hnew := newest_freeLoad ht (by omega) r.page page f ⟨rest⟩
    have hvalid := validPages_insert (t := m.pageTable) (p := r.page) fun q => by
      rw [afterLoad_valid m r.page page f ⟨rest⟩ (m.pageTable.accessPage r.page), hacc]
    rw [hvalid]
    refine .load (by rwa [mem_validPages]) ?_
    rw [← hvalid]
    simpa only [mem_validPages] using hnew
  | @eviction page v _ hp _ hs hvict =>
    refine ⟨true, ?_, rfl⟩
    have hfull : residents m.pageTable = m.numberOfFramesInPm.toNat := by
      have := hi.full hs
      omega
    have hnew := newest_evictionLoad ht hc r.page v page (m.pageTable.frame v) m.workingSet
    have hvalid := validPages_swap (t := m.pageTable) (p := r.page) (v := v) fun q => by
      rw [afterLoad_valid m r.page page (m.pageTable.frame v) m.workingSet (m.evictedTable r.page v),
        evictedTable_valid]
    rw [hvalid]
    refine .replace (v := v) (by rwa [mem_validPages]) hfull.ge ?_ ?_
    · simpa only [mem_validPages] using victim_oldest_of_fault hp hvict
    · rw [← hvalid]
      simpa only [mem_validPages] using hnew

/-! ## Runs -/

/-- A manager with `n` frames some requests after it was built; its clock and its fault counter are at most `c`. -/
structure Underway (n : Int) (s : ReplacementStrategy) (bs : BackingStore) (c : Int) (m : VirtualMemoryManager) :
    Prop where
  inv : FrameInv m
  ticking : Ticking m.pageTable c
  config : Config n s bs m
  counted : 0 ≤ m.pagefaults.toInt ∧ m.pagefaults.toInt ≤ c

theorem Underway.initial {n : Int} (hn : 1 ≤ n) (s : ReplacementStrategy) (bs : BackingStore) :
    Underway n s bs 0 (initial n s bs) where
  inv := frameInv_initial hn s bs
  ticking := Ticking.initial s
  config := ⟨rfl, rfl, rfl⟩
  counted := show 0 ≤ (0 : Int32).toInt ∧ (0 : Int32).toInt ≤ 0 by decide

/-- The requests of a run are served as by a cache with `n` places, each page fault a load. -/
theorem Underway.serving {n : Int} {s : ReplacementStrategy} {bs : BackingStore} {rs : List Request}
    (hio : ∀ r ∈ rs, ∃ page, bs.getPage (r.page.val * pageSize) pageSize r.io = .ok page) :
    ∀ {m : VirtualMemoryManager} {c : Int}, Underway n s bs c m → c + 3 * rs.length < 2 ^ 31 - 1 →
      ∃ m' resps tr, run readByte m rs = .ok (m', resps) ∧ Underway n s bs (c + 3 * rs.length) m' ∧
        tr.map Prod.fst = rs.map (·.page) ∧
        Serving n.toNat (validPages m.pageTable) m.pageTable.stamp tr (validPages m'.pageTable) m'.pageTable.stamp ∧
        m'.pagefaults.toInt = m.pagefaults.toInt + loads tr := by
  induction rs with
  | nil =>
    intro m c h _
    exact ⟨m, [], [], rfl, by simpa using h, rfl, .nil, by simp⟩
  | cons r rs ih =>
    intro m c h hlen
    rw [List.length_cons] at hlen
    obtain ⟨hr, hrs⟩ := List.forall_mem_cons.1 hio
    obtain ⟨m₁, resp, hstep, ha, hi₁, ht₁⟩ := readByte_step h.inv h.ticking (by omega) r
    obtain ⟨b, hserved, hfaults⟩ := ha.served h.inv h.ticking (by omega) (by unfold getPage; rw [h.config.store]; exact hr)
    -- the counter is at most `c`, so it does not wrap
    have hcount : m₁.pagefaults.toInt = m.pagefaults.toInt + b.toNat := by
      have hinc : (m.pagefaults + 1).toInt = m.pagefaults.toInt + 1 := toInt_incr (by have := h.counted; omega)
      rw [hfaults]
      cases b
      · simp
      · simpa using hinc
    have hle := b.toNat_le
    have h₁ : Underway n s bs (c + 3) m₁ := ⟨hi₁, ht₁, h.config.access ha, by have := h.counted; omega⟩
    obtain ⟨m', resps, tr, hrun, hm', hpages, hserving, hloads⟩ := ih hrs h₁ (by omega)
    refine ⟨m', _, (r.page, b) :: tr, run_cons_ok.2 ⟨m₁, resp, resps, hstep, hrun, rfl⟩, ?_, ?_, ?_, ?_⟩
    · rw [List.length_cons]
      convert hm' using 1
      push_cast
      ring
    · rw [List.map_cons, List.map_cons, hpages]
    · rw [h.config.frames] at hserved
      exact .cons hserved hserving
    · rw [hloads, hcount, loads_cons]
      push_cast
      ring

/-- In a stretch of requests for at most `n` different pages there are at most as many faults as pages. -/
theorem Underway.window {n : Int} {s : ReplacementStrategy} {bs : BackingStore} {w : List Request} (h : Underway n s bs c m)
    (hlen : c + 3 * w.length < 2 ^ 31 - 1)
    (hio : ∀ r ∈ w, ∃ page, bs.getPage (r.page.val * pageSize) pageSize r.io = .ok page)
    (hw : ((w.map (·.page)).toFinset.card : Int) ≤ n) :
    ∃ m' resps, run readByte m w = .ok (m', resps) ∧
      m'.pagefaults.toInt - m.pagefaults.toInt ≤ (w.map (·.page)).toFinset.card := by
  obtain ⟨m', resps, tr, hrun, _, hpages, hserving, hloads⟩ := h.serving hio hlen
  have hreq : requested tr = (w.map (·.page)).toFinset := by unfold requested; rw [hpages]
  have hwindow := hserving.window (by rw [hreq]; omega)
  rw [hreq] at hwindow
  exact ⟨m', resps, hrun, by omega⟩

/-- Neither strategy thrashes on a working set that fits: in any stretch `w` of the requests that asks for at
most `n` different pages, there are at most as many page faults as it asks for pages. -/
theorem faults_in_window {n : Int} (hn : 1 ≤ n) (s : ReplacementStrategy) (bs : BackingStore) {pre w : List Request}
    (hlen : (pre ++ w).length < 2 ^ 29)
    (hio : ∀ r ∈ pre ++ w, ∃ page, bs.getPage (r.page.val * pageSize) pageSize r.io = .ok page)
    (hw : ((w.map (·.page)).toFinset.card : Int) ≤ n) :
    ∃ m resps m' resps', run readByte (initial n s bs) pre = .ok (m, resps) ∧ run readByte m w = .ok (m', resps') ∧
      m'.pagefaults.toInt - m.pagefaults.toInt ≤ (w.map (·.page)).toFinset.card := by
  rw [List.length_append] at hlen
  obtain ⟨m, resps, _, hrun, hm, _⟩ := (Underway.initial hn s bs).serving
    (fun r hr => hio r (List.mem_append_left w hr)) (by omega)
  obtain ⟨m', resps', hrun', hfaults⟩ := hm.window (by omega) (fun r hr => hio r (List.mem_append_right pre hr)) hw
  exact ⟨m, resps, m', resps', hrun, hrun', hfaults⟩

/-- Two pages in one frame, the second of them twice. -/
theorem faults_in_window_one_frame : ∃ m resps m' resps',
    run readByte (initial 1 .fifo ⟨some numberedStore⟩) [.served 0] = .ok (m, resps) ∧
      run readByte m [.served 256, .served 257] = .ok (m', resps') ∧
      m'.pagefaults.toInt - m.pagefaults.toInt ≤ ([Request.served 256, Request.served 257].map (·.page)).toFinset.card :=
  faults_in_window (by decide) _ _ (by decide) (fun r hr => by
    obtain ⟨f, _, _, hok⟩ := getPage_readsAll (numberedStore_reads r.address)
    simp only [List.cons_append, List.nil_append, List.mem_cons, List.not_mem_nil, or_false] at hr
    rcases hr with rfl | rfl | rfl <;> exact ⟨_, hok⟩) (by decide)

/-- Both strategies are competitive: against any way to serve the requests from `h ≤ n` places, one that
knows all of them in advance and loads pages whenever it likes at a cost of `c` altogether included, the page
faults with `n` frames are at most `n / (n - h + 1)` times `c`, up to the faults of one phase. -/
theorem competitive {n : Int} (hn : 1 ≤ n) (s : ReplacementStrategy) (bs : BackingStore) {rs : List Request}
    (hlen : rs.length < 2 ^ 29)
    (hio : ∀ r ∈ rs, ∃ page, bs.getPage (r.page.val * pageSize) pageSize r.io = .ok page) {h c : Nat} (hh : (h : Int) ≤ n)
    {M M' : Finset PageNumber} (hserves : Serves h M (rs.map (·.page)) c M') :
    ∃ m resps, run readByte (initial n s bs) rs = .ok (m, resps) ∧
      (n - h + 1) * m.pagefaults.toInt ≤ n * (c + (n - h + 1)) := by
  obtain ⟨m, resps, tr, hrun, _, hpages, hserving, hloads⟩ := (Underway.initial hn s bs).serving hio (by omega)
  rw [← hpages] at hserves
  have hratio := hserving.conservative.loads_le (by omega) (by omega) hserves
  refine ⟨m, resps, hrun, ?_⟩
  obtain ⟨k, rfl⟩ := Int.eq_ofNat_of_zero_le (show 0 ≤ n by omega)
  have hzero : (initial k s bs).pagefaults.toInt = 0 := show (0 : Int32).toInt = 0 by decide
  rw [hloads, hzero, zero_add]
  rw [Int.toNat_natCast] at hratio
  have hcast : ((k - h + 1 : Nat) : Int) = (k : Int) - h + 1 := by omega
  rw [← hcast]
  exact_mod_cast hratio

/-- Two pages in two frames against a single place, which brings in three pages for them. -/
theorem competitive_two_frames : ∃ m resps,
    run readByte (initial 2 .lru ⟨some numberedStore⟩) [.served 0, .served 256, .served 0] = .ok (m, resps) ∧
      (2 - ((1 : Nat) : Int) + 1) * m.pagefaults.toInt ≤ 2 * (((3 : Nat) : Int) + (2 - ((1 : Nat) : Int) + 1)) := by
  have hserves : Serves 1 ∅ ([Request.served 0, Request.served 256, Request.served 0].map (·.page)) 3 {(0 : PageNumber)} :=
    Serves.cons (M := ∅) (Finset.mem_singleton_self 0) (le_refl 1)
      (Serves.cons (M := {(0 : PageNumber)}) (Finset.mem_singleton_self 1) (le_refl 1)
        (Serves.cons (M := {(1 : PageNumber)}) (Finset.mem_singleton_self 0) (le_refl 1) .nil))
  refine competitive (by decide) _ _ (by decide) (fun r hr => ?_) (by decide) hserves
  obtain ⟨f, _, _, hok⟩ := getPage_readsAll (numberedStore_reads r.address)
  simp only [List.mem_cons, List.not_mem_nil, or_false] at hr
  rcases hr with rfl | rfl | rfl <;> exact ⟨_, hok⟩

end VirtualMemoryManager

end UnixSysProg.Vmm2
