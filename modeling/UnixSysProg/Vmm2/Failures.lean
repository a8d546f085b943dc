/-
Failed requests are invisible. A request whose page cannot be read returns before anything but the
counters and the page's recency stamp has changed, and the stamp of an invalid page is never
compared. So a run and the same run without its failed requests stay in states that differ in
counters and stamps only, and rank the valid pages alike (`Forgets`): every later request takes the
same branch in both, evicts the same page and answers the same.
-/
import UnixSysProg.Vmm2.Frames

namespace UnixSysProg.Vmm2

open UnixSysProg.Lib UnixSysProg.Vmm

namespace VirtualMemoryManager

/-! ## Observations -/

/-- What a request shows: its response, and by how much each of the manager's counters of TLB hits,
page hits and page faults went up. -/
structure Observation where
  response : Response
  tlbhits : Int32
  pagehits : Int32
  pagefaults : Int32
  deriving DecidableEq

def observation (m m' : VirtualMemoryManager) (response : Response) : Observation :=
  ⟨response, m'.tlbhits - m.tlbhits, m'.pagehits - m.pagehits, m'.pagefaults - m.pagefaults⟩

/-- `readByte`, observed. -/
def readByteObserved (m : VirtualMemoryManager) (r : Request) : Except Undefined (VirtualMemoryManager × Observation) :=
  match m.readByte r with
  | .error e => .error e
  | .ok (m', response) => .ok (m', observation m m' response)

def Observation.succeeded (o : Observation) : Bool := o.response.status == statusSuccess

/-- The requests of a run that succeeded. -/
def served (rs : List Request) (os : List Observation) : List Request :=
  ((rs.zip os).filter fun x => x.2.succeeded).map Prod.fst

theorem served_cons (r : Request) (rs : List Request) (o : Observation) (os : List Observation) :
    served (r :: rs) (o :: os) = if o.succeeded then r :: served rs os else served rs os := by
  unfold served
  rw [List.zip_cons_cons, List.filter_cons]
  split <;> simp

/-- The second request is for the same address, and should the store deliver a page to the first it
delivers the same page to the second. -/
def SameAnswer (bs : BackingStore) (r r' : Request) : Prop :=
  r'.address = r.address ∧ ∀ page, bs.getPage (r.page.val * pageSize) pageSize r.io = .ok page →
    bs.getPage (r'.page.val * pageSize) pageSize r'.io = .ok page

/-! ## A failed request -/

/-- Nothing has changed but counters and stamps. -/
structure Unchanged (m m' : VirtualMemoryManager) : Prop where
  tlb : m'.tlb = m.tlb
  workingSet : m'.workingSet = m.workingSet
  physicalMemory : m'.physicalMemory = m.physicalMemory
  valid : ∀ p, m'.pageTable.Valid p ↔ m.pageTable.Valid p
  frame : ∀ p, m'.pageTable.frame p = m.pageTable.frame p

theorem unchanged_afterFailure (m : VirtualMemoryManager) (p : PageNumber) : Unchanged m (m.afterFailure p) :=
  ⟨rfl, rfl, rfl, fun q => by simp [afterFailure, lookedUp], fun q => by simp [afterFailure, lookedUp]⟩

/-- A request either succeeds, or has failed to read its page and stopped there. -/
theorem Access.outcome {m m' : VirtualMemoryManager} {r : Request} {resp : Response} (ha : Access m r m' resp) :
    resp.status = statusSuccess ∨ (resp = .failed ∧ m' = m.afterFailure r.page ∧ ¬ m.pageTable.Valid r.page) := by
  cases ha with
  | tlbHit _ => exact .inl rfl
  | pageHit _ _ => exact .inl rfl
  | failed _ hp _ => exact .inr ⟨rfl, rfl, hp⟩
  | freeFrame _ _ _ _ => exact .inl rfl
  | eviction _ _ _ _ _ => exact .inl rfl

theorem Access.unchanged {m m' : VirtualMemoryManager} {r : Request} {resp : Response} (ha : Access m r m' resp)
    (hf : resp.status = statusFailure) : Unchanged m m' := by
  rcases ha.outcome with hs | ⟨_, rfl, _⟩
  · rw [hs] at hf; cases hf
  · exact unchanged_afterFailure m r.page

/-- A `translate` that returns `status_failure` leaves everything but counters and stamps alone. -/
theorem translate_failure {m m' : VirtualMemoryManager} {r : Request} (h : FrameInv m)
    (ht : translate { m with pagelookups := m.pagelookups + 1 } r.address r.io = .ok (m', none)) : Unchanged m m' := by
  have hr : m.readByte r = .ok (m', .failed) := by simp only [readByte, ht]; rfl
  exact (access_of_readByte h hr).unchanged rfl

/-! ## The run without them -/

/-- The manager `m'` after the requests of `m` that succeeded: the same but for counters and stamps,
and the valid pages ranked alike. -/
structure Forgets (m m' : VirtualMemoryManager) : Prop where
  frames : m'.numberOfFramesInPm = m.numberOfFramesInPm
  store : m'.backingStore = m.backingStore
  strategy : m'.pageTable.strategy = m.pageTable.strategy
  unchanged : Unchanged m m'
  order : SameOrder m.pageTable.Valid m.pageTable.stamp m'.pageTable.stamp

theorem Forgets.frameInv {m m' : VirtualMemoryManager} (h : Forgets m m') (hi : FrameInv m) : FrameInv m' :=
  hi.congr h.frames h.unchanged.workingSet h.unchanged.valid h.unchanged.frame

theorem Forgets.valid_eq {m m' : VirtualMemoryManager} (h : Forgets m m') :
    m'.pageTable.Valid = m.pageTable.Valid := funext fun p => propext (h.unchanged.valid p)

/-- A failed request of the longer run. -/
theorem Forgets.failed {m m' : VirtualMemoryManager} (h : Forgets m m') {p : PageNumber} (hp : ¬ m.pageTable.Valid p) :
    Forgets (m.afterFailure p) m' := by
  have hu := unchanged_afterFailure m p
  refine ⟨h.frames, h.store, h.strategy.trans (PageTable.accessPage_strategy _ _).symm, ?_, ?_⟩
  · exact ⟨h.unchanged.tlb, h.unchanged.workingSet, h.unchanged.physicalMemory,
      fun q => (h.unchanged.valid q).trans (hu.valid q).symm, fun q => (h.unchanged.frame q).trans (hu.frame q).symm⟩
  · show SameOrder (m.pageTable.accessPage p).Valid (m.pageTable.accessPage p).stamp m'.pageTable.stamp
    rw [PageTable.accessPage_valid, (m.pageTable.accessPage_stamp p).1]
    split
    · exact h.order.touch_left hp
    · exact h.order

/-- A page looked up in both runs. -/
theorem Forgets.access {m m' : VirtualMemoryManager} {c : Int} (h : Forgets m m') (ht : Ticking m.pageTable c)
    (ht' : Ticking m'.pageTable c) (p : PageNumber) :
    SameOrder (m.pageTable.accessPage p).Valid (m.pageTable.accessPage p).stamp (m'.pageTable.accessPage p).stamp := by
  by_cases hs : m.pageTable.strategy = .lru
  · refine h.order.newest (ht.newest_access hs p) (ht'.newest_access (h.strategy.trans hs) p) fun q hq => ?_
    rw [PageTable.accessPage_valid] at hq ⊢
    exact (h.unchanged.valid q).2 hq
  · rw [(m.pageTable.accessPage_stamp p).1, (m'.pageTable.accessPage_stamp p).1, if_neg hs,
      if_neg (by rw [h.strategy]; exact hs), PageTable.accessPage_valid]
    exact h.order

/-- The victim is the same in both runs. -/
theorem Forgets.victim {m m' : VirtualMemoryManager} {c : Int} (h : Forgets m m') (hi : FrameInv m)
    (ht : Ticking m.pageTable c) (ht' : Ticking m'.pageTable c) (hc : c + 1 < 2 ^ 31 - 1) {p v : PageNumber}
    (hs : m.workingSet.set = []) (hv : (m.pageTable.accessPage p).victim = some v) :
    (m'.pageTable.accessPage p).victim = some v := by
  -- the stamps differ, but both runs rank the resident pages alike
  obtain ⟨w, hw⟩ := victimFound (h.frameInv hi) ht' hc (by rw [h.unchanged.workingSet]; exact hs) p
  have hold := PageTable.victim_oldest hw
  rw [PageTable.accessPage_valid, h.valid_eq] at hold
  have hold' := PageTable.victim_oldest hv
  rw [PageTable.accessPage_valid] at hold'
  have ho := h.access ht ht' p
  rw [PageTable.accessPage_valid] at ho
  have hst := (ht.access (by omega) p).stamped
  rw [PageTable.accessPage_valid] at hst
  rw [hw, Oldest.unique hst (ho.symm.oldest hold) hold']

theorem observation_eq (m m' m₁ m₁' : VirtualMemoryManager) (resp : Response) {a b c : Int32}
    (h1 : m₁.tlbhits = m.tlbhits + a) (h2 : m₁.pagehits = m.pagehits + b) (h3 : m₁.pagefaults = m.pagefaults + c)
    (h1' : m₁'.tlbhits = m'.tlbhits + a) (h2' : m₁'.pagehits = m'.pagehits + b)
    (h3' : m₁'.pagefaults = m'.pagefaults + c) : observation m' m₁' resp = observation m m₁ resp := by
  have hsub : ∀ x y : Int32, x + y - x = y := fun x y => by rw [Int32.add_comm, Int32.add_sub_cancel]
  simp only [observation, h1, h2, h3, h1', h2', h3', hsub]

theorem Forgets.lookedUp {m m' : VirtualMemoryManager} {c : Int} (h : Forgets m m') (ht : Ticking m.pageTable c)
    (ht' : Ticking m'.pageTable c) (p : PageNumber) : Forgets (m.lookedUp p) (m'.lookedUp p) where
  frames := h.frames
  store := h.store
  strategy := by
    show (m'.pageTable.accessPage p).strategy = (m.pageTable.accessPage p).strategy
    rw [PageTable.accessPage_strategy, PageTable.accessPage_strategy, h.strategy]
  unchanged := ⟨h.unchanged.tlb, h.unchanged.workingSet, h.unchanged.physicalMemory,
    fun q => by simpa [VirtualMemoryManager.lookedUp] using h.unchanged.valid q,
    fun q => by simpa [VirtualMemoryManager.lookedUp] using h.unchanged.frame q⟩
  order := h.access ht ht' p

/-- Equal TLBs and any counters. -/
theorem Forgets.withTlb {m m' : VirtualMemoryManager} (h : Forgets m m') {t t' : Tlb} (ht : t' = t) (a b a' b' : Int32) :
    Forgets { m with tlb := t, pagehits := a, tlbhits := b } { m' with tlb := t', pagehits := a', tlbhits := b' } :=
  ⟨h.frames, h.store, h.strategy, ⟨ht, h.unchanged.workingSet, h.unchanged.physicalMemory, h.unchanged.valid,
    h.unchanged.frame⟩, h.order⟩

/-- The same page loaded into the same frame in both. -/
theorem Forgets.load {m m' : VirtualMemoryManager} (h : Forgets m m') {p : PageNumber} {page : Page} {f : FrameNumber}
    {ws : WorkingSet} {t t' : PageTable} (hs : t'.strategy = t.strategy) (hv : ∀ q, t'.Valid q ↔ t.Valid q)
    (hf : ∀ q, t'.frame q = t.frame q)
    (hn : Newest m.pageTable.Valid m.pageTable.stamp (m.afterLoad p page f ws t).pageTable.Valid
      (m.afterLoad p page f ws t).pageTable.stamp p)
    (hn' : Newest m'.pageTable.Valid m'.pageTable.stamp (m'.afterLoad p page f ws t').pageTable.Valid
      (m'.afterLoad p page f ws t').pageTable.stamp p) :
    Forgets (m.afterLoad p page f ws t) (m'.afterLoad p page f ws t') := by
  have hva : ∀ q, (m'.afterLoad p page f ws t').pageTable.Valid q ↔ (m.afterLoad p page f ws t).pageTable.Valid q :=
    fun q => by rw [afterLoad_valid, afterLoad_valid, hv]
  refine ⟨h.frames, h.store, hs, ⟨?_, rfl, ?_, hva, ?_⟩, h.order.newest hn hn' fun q hq => (hva q).2 hq⟩
  · simp only [afterLoad, h.unchanged.tlb]
  · simp only [afterLoad, h.unchanged.physicalMemory]
  · intro q
    rw [afterLoad_frame, afterLoad_frame, hf]

/-- A request that succeeds takes the same branch in both runs, with the same observation. -/
theorem Access.forgets {m m' m₁ : VirtualMemoryManager} {r r' : Request} {resp : Response} {c : Int}
    (ha : Access m r m₁ resp) (hok : resp.status = statusSuccess) (h : Forgets m m') (hi : FrameInv m)
    (ht : Ticking m.pageTable c) (ht' : Ticking m'.pageTable c) (hc : c + 1 < 2 ^ 31 - 1)
    (hr : SameAnswer m.backingStore r r') :
    ∃ m₁', Access m' r' m₁' resp ∧ Forgets m₁ m₁' ∧ observation m' m₁' resp = observation m m₁ resp := by
  have hgood : ∀ page, m.getPage r = .ok page → m'.getPage r' = .ok page := by
    intro page hg
    unfold getPage; rw [h.store]; exact hr.2 page hg
  obtain ⟨a, io⟩ := r
  obtain ⟨a', io'⟩ := r'
  obtain rfl : a' = a := hr.1
  have hl := h.lookedUp ht ht' (getPageNumberFromLogicalAddress a')
  have hpm := h.unchanged.physicalMemory
  have hfr := h.unchanged.frame
  have hmiss : ∀ {p f}, m.tlb.lookup p = f → m'.tlb.lookup p = f := fun hf => by rw [h.unchanged.tlb]; exact hf
  have hinvalid : ∀ {p}, ¬ m.pageTable.Valid p → ¬ m'.pageTable.Valid p := fun hp hp' => hp ((h.unchanged.valid _).1 hp')
  -- whatever the first run meets in the TLB, the page table and the free stack, the other meets too
  cases ha with
  | @tlbHit f hlook =>
    refine ⟨_, ?_, hl.withTlb h.unchanged.tlb m.pagehits (m.tlbhits + 1) m'.pagehits (m'.tlbhits + 1),
      observation_eq _ _ _ _ _ rfl (Int32.add_zero _).symm (Int32.add_zero _).symm rfl (Int32.add_zero _).symm
        (Int32.add_zero _).symm⟩
    rw [← hpm]
    exact .tlbHit (hmiss hlook)
  | pageHit hlook hv =>
    refine ⟨m'.afterPageHit _, ?_, hl.withTlb ?_ (m.pagehits + 1) m.tlbhits (m'.pagehits + 1) m'.tlbhits,
      observation_eq _ _ _ _ _ (Int32.add_zero _).symm rfl (Int32.add_zero _).symm (Int32.add_zero _).symm rfl
        (Int32.add_zero _).symm⟩
    · rw [← hpm, ← hfr]
      exact .pageHit (hmiss hlook) ((h.unchanged.valid _).2 hv)
    · rw [h.unchanged.tlb, hfr]; rfl
  | failed _ _ _ => cases hok
  | @freeFrame page f rest hlook hp hg hs =>
    refine ⟨m'.afterLoad _ page f ⟨rest⟩ (m'.pageTable.accessPage _), ?_,
      h.load hl.strategy hl.unchanged.valid hl.unchanged.frame (newest_freeLoad ht (by omega) _ _ _ _)
        (newest_freeLoad ht' (by omega) _ _ _ _),
      observation_eq _ _ _ _ _ (Int32.add_zero _).symm (Int32.add_zero _).symm rfl (Int32.add_zero _).symm
        (Int32.add_zero _).symm rfl⟩
    rw [← hpm]
    exact .freeFrame (hmiss hlook) (hinvalid hp) (hgood page hg) (by rw [h.unchanged.workingSet]; exact hs)
  | @eviction page v hlook hp hg hs hvict =>
    have hv' : ∀ p q, (m'.evictedTable p v).Valid q ↔ (m.evictedTable p v).Valid q := by
      intro p q
      rw [evictedTable_valid, evictedTable_valid, h.unchanged.valid]
    have hf' : ∀ p q, (m'.evictedTable p v).frame q = (m.evictedTable p v).frame q := by
      intro p q
      rw [evictedTable_frame, evictedTable_frame, hfr]
    have hstrat : (m'.evictedTable (getPageNumberFromLogicalAddress a') v).strategy =
      (m.evictedTable (getPageNumberFromLogicalAddress a') v).strategy := hl.strategy
    have hload := h.load (f := m.pageTable.frame v) hstrat (hv' _) (hf' _)
      (newest_evictionLoad ht hc _ v page _ m.workingSet) (newest_evictionLoad ht' hc _ v _ _ _)
    refine ⟨m'.afterLoad _ page (m.pageTable.frame v) m.workingSet (m'.evictedTable _ v), ?_, hload,
      observation_eq _ _ _ _ _ (Int32.add_zero _).symm (Int32.add_zero _).symm rfl (Int32.add_zero _).symm
        (Int32.add_zero _).symm rfl⟩
    have hvict' := h.victim hi ht ht' hc hs hvict
    rw [← hpm, ← hfr, ← h.unchanged.workingSet]
    exact .eviction (hmiss hlook) (hinvalid hp) (hgood page hg) (by rw [h.unchanged.workingSet]; exact hs) hvict'

/-! ## Runs -/

theorem readByteObserved_access {m m' : VirtualMemoryManager} {r : Request} {resp : Response} (hi : FrameInv m)
    (ha : Access m r m' resp) : m.readByteObserved r = .ok (m', observation m m' resp) := by
  simp only [readByteObserved, ha.readByte hi]

theorem run_observed : ∀ {rs : List Request} {c : Int} {m : VirtualMemoryManager}, FrameInv m → Ticking m.pageTable c →
    c + 3 * (rs.length : Int) < 2 ^ 31 - 1 → ∃ m₁ os, run readByteObserved m rs = .ok (m₁, os)
  | [], _, m, _, _, _ => ⟨m, [], rfl⟩
  | r :: rs, c, m, hi, ht, hc => by
    rw [List.length_cons, Nat.cast_add, Nat.cast_one] at hc
    obtain ⟨m₁, resp, _, ha, hi₁, ht₁⟩ := readByte_step hi ht (by omega) r
    obtain ⟨m₂, os, hr⟩ := run_observed hi₁ ht₁ (show c + 3 + 3 * (rs.length : Int) < 2 ^ 31 - 1 by omega)
    exact ⟨m₂, _, run_cons_ok.2 ⟨_, _, _, readByteObserved_access hi ha, hr, rfl⟩⟩

/-- A run and the run of its successful requests alone end in related states, with the same
observations of those requests. -/
theorem run_forgets : ∀ {rs rs' : List Request} {os : List Observation} {c : Int} {m m' m₁ : VirtualMemoryManager},
    Forgets m m' → FrameInv m → Ticking m.pageTable c → Ticking m'.pageTable c →
      c + 3 * (rs.length : Int) < 2 ^ 31 - 1 → run readByteObserved m rs = .ok (m₁, os) →
      List.Forall₂ (SameAnswer m.backingStore) (served rs os) rs' →
      ∃ m₁', run readByteObserved m' rs' = .ok (m₁', os.filter (·.succeeded)) ∧ Forgets m₁ m₁'
  | [], rs', _, _, m, m', _, h, _, _, _, _, hr, hrs' => by
    cases hr; cases hrs'
    exact ⟨m', rfl, h⟩
  | r :: rs, rs', _, c, m, m', _, h, hi, ht, ht', hc, hr, hrs' => by
    rw [List.length_cons, Nat.cast_add, Nat.cast_one] at hc
    obtain ⟨m₁, o, os, hstep, hrest, rfl⟩ := run_cons_ok.1 hr
    obtain ⟨m₂, resp, _, ha, hi₁, ht₁⟩ := readByte_step hi ht (by omega) r
    rw [readByteObserved_access hi ha] at hstep
    cases hstep
    have hc' : c + 3 + 3 * (rs.length : Int) < 2 ^ 31 - 1 := by omega
    have hstore : m₁.backingStore = m.backingStore := ha.config.2.1
    rw [served_cons] at hrs'
    rw [List.filter_cons]
    rcases ha.outcome with hok | ⟨rfl, rfl, hp⟩
    · have hsucc : (observation m m₁ resp).succeeded = true := beq_iff_eq.2 hok
      rw [hsucc, if_pos rfl] at hrs' ⊢
      obtain ⟨r', rs'', hans, htail, rfl⟩ := List.forall₂_cons_left_iff.1 hrs'
      obtain ⟨m₁', ha', h₁, hobs⟩ := ha.forgets hok h hi ht ht' (by omega) hans
      have hi' := h.frameInv hi
      obtain ⟨m₂', hr', h₂⟩ := run_forgets h₁ hi₁ ht₁ (ticking_access ht' (by omega) ha') hc' hrest
        (by rw [hstore]; exact htail)
      refine ⟨m₂', run_cons_ok.2 ⟨_, _, _, readByteObserved_access hi' ha', hr', by rw [hobs]⟩, h₂⟩
    · -- the request failed: the other run does not see it
      have hsucc : (observation m (m.afterFailure r.page) .failed).succeeded = false := rfl
      rw [hsucc, if_neg (by decide)] at hrs' ⊢
      exact run_forgets (h.failed hp) hi₁ ht₁ (ht'.mono (by omega)) hc' hrest
        (by rw [hstore]; exact hrs')

theorem forgets_refl (m : VirtualMemoryManager) : Forgets m m :=
  ⟨rfl, rfl, rfl, ⟨rfl, rfl, rfl, fun _ => Iff.rfl, fun _ => rfl⟩, SameOrder.refl _ _⟩

/-- Failed requests are invisible: a run of fewer than 2^29 requests under any kernel answers goes
through; a request whose translation fails leaves the TLB, the free stack, physical memory and the
mappings as they were; and a run of the successful requests alone, on a kernel that delivers the same
pages, observes for each of them the same response and the same kind of hit or fault. -/
theorem failed_requests_invisible {n : Int} (hn : 1 ≤ n) (s : ReplacementStrategy) (bs : BackingStore)
    {rs : List Request} (hlen : rs.length < 2 ^ 29) :
    ∃ m os, run readByteObserved (initial n s bs) rs = .ok (m, os) ∧
      (∀ pre r post m₀ resps m₁, rs = pre ++ r :: post → run readByte (initial n s bs) pre = .ok (m₀, resps) →
        translate { m₀ with pagelookups := m₀.pagelookups + 1 } r.address r.io = .ok (m₁, none) → Unchanged m₀ m₁) ∧
      ∀ rs', List.Forall₂ (SameAnswer bs) (served rs os) rs' →
        ∃ m', run readByteObserved (initial n s bs) rs' = .ok (m', os.filter (·.succeeded)) := by
  have hi := frameInv_initial hn s bs
  have hticks : 0 + 3 * (rs.length : Int) < 2 ^ 31 - 1 := by omega
  obtain ⟨m, os, hr⟩ := run_observed hi (Ticking.initial s) hticks
  refine ⟨m, os, hr, ?_, ?_⟩
  · intro pre r post m₀ resps m₁ hall hpre ht
    have hle : pre.length < 2 ^ 29 := by rw [hall] at hlen; simp at hlen; omega
    obtain ⟨m₀', resps', hpre', hi₀, _⟩ := run_access hn s bs hle (P := fun _ _ _ => True) trivial
      fun _ _ _ _ _ _ _ _ _ _ _ _ _ => trivial
    rw [hpre] at hpre'
    cases hpre'
    exact translate_failure hi₀ ht
  · intro rs' hrs'
    obtain ⟨m', hr', _⟩ := run_forgets (forgets_refl _) hi (Ticking.initial s) (Ticking.initial s) (by omega) hr hrs'
    exact ⟨m', hr'⟩

/-- Page 0, a failed request for page 1, page 0 again. -/
theorem failed_requests_invisible_one_failure :
    ∃ m os, run readByteObserved (initial 1 .lru ⟨some ⟨65536, fun _ => 7⟩⟩)
        [.served 0, ⟨256, .error ⟨5, by decide⟩, .count 256, fun _ => 0⟩, .served 0] = .ok (m, os) ∧
      (∀ pre r post m₀ resps m₁,
        [Request.served 0, ⟨256, .error ⟨5, by decide⟩, .count 256, fun _ => 0⟩, .served 0] = pre ++ r :: post →
        run readByte (initial 1 .lru ⟨some ⟨65536, fun _ => 7⟩⟩) pre = .ok (m₀, resps) →
        translate { m₀ with pagelookups := m₀.pagelookups + 1 } r.address r.io = .ok (m₁, none) → Unchanged m₀ m₁) ∧
      ∀ rs', List.Forall₂ (SameAnswer ⟨some ⟨65536, fun _ => 7⟩⟩)
          (served [.served 0, ⟨256, .error ⟨5, by decide⟩, .count 256, fun _ => 0⟩, .served 0] os) rs' →
        ∃ m', run readByteObserved (initial 1 .lru ⟨some ⟨65536, fun _ => 7⟩⟩) rs' = .ok (m', os.filter (·.succeeded)) :=
  failed_requests_invisible (by decide) .lru _ (by decide)

end VirtualMemoryManager

end UnixSysProg.Vmm2
