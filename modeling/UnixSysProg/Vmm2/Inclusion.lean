/-
More frames never hurt under LRU: the run with fewer frames and the run with more touch the same
pages in the same order, so they rank the pages they share alike, and the smaller set of valid pages
stays inside the larger one. Stale TLB entries do not disturb this: the two TLBs hold the same pages
throughout, though not the same frames, and a hit touches the page in both runs.
-/
import UnixSysProg.Vmm2.Frames

namespace UnixSysProg.Vmm2

open UnixSysProg.Lib UnixSysProg.Vmm

namespace VirtualMemoryManager

/-! ## What a request does to the set of valid pages -/

/-- With a store that answers, a request leaves the valid pages as they are, or adds its page, in the
place of the oldest one when no frame is free. -/
inductive Residency (m : VirtualMemoryManager) (p : PageNumber) (m' : VirtualMemoryManager) : Prop
  | hit : (m.tlb.lookup p = none → m.pageTable.Valid p) → (∀ q, m'.pageTable.Valid q ↔ m.pageTable.Valid q) →
      m'.pagefaults = m.pagefaults → Residency m p m'
  | load : m.tlb.lookup p = none → ¬ m.pageTable.Valid p → residents m.pageTable < m.numberOfFramesInPm.toNat →
      (∀ q, m'.pageTable.Valid q ↔ q = p ∨ m.pageTable.Valid q) → m'.pagefaults = m.pagefaults + 1 → Residency m p m'
  | replace {v : PageNumber} : m.tlb.lookup p = none → ¬ m.pageTable.Valid p →
      residents m.pageTable = m.numberOfFramesInPm.toNat → Oldest m.pageTable.Valid m.pageTable.stamp v →
      (∀ q, m'.pageTable.Valid q ↔ q = p ∨ (m.pageTable.Valid q ∧ q ≠ v)) → m'.pagefaults = m.pagefaults + 1 →
      Residency m p m'

theorem Residency.faults {m m' : VirtualMemoryManager} {p : PageNumber} (h : Residency m p m') :
    (m'.pagefaults = m.pagefaults ∧ (m.tlb.lookup p = none → m.pageTable.Valid p)) ∨
      (m'.pagefaults = m.pagefaults + 1 ∧ m.tlb.lookup p = none ∧ ¬ m.pageTable.Valid p) := by
  cases h with
  | hit hv _ hf => exact .inl ⟨hf, hv⟩
  | load hnone hp _ _ hf => exact .inr ⟨hf, hnone, hp⟩
  | replace hnone hp _ _ _ hf => exact .inr ⟨hf, hnone, hp⟩

/-- Looking the faulting page up does not change which valid page is the oldest. -/
theorem victim_oldest_of_fault {t : PageTable} {p v : PageNumber} (hp : ¬ t.Valid p)
    (h : (t.accessPage p).victim = some v) : Oldest t.Valid t.stamp v := by
  have hne : ∀ q, t.Valid q → q ≠ p := fun q hq he => hp (he ▸ hq)
  have ho := PageTable.victim_oldest h
  rw [PageTable.accessPage_valid] at ho
  refine ⟨ho.1, fun q hq => ?_⟩
  have := ho.2 q hq
  rwa [t.accessPage_stamp_ne (hne v ho.1), t.accessPage_stamp_ne (hne q hq)] at this

theorem Access.residency {m m' : VirtualMemoryManager} {r : Request} {resp : Response} (ha : Access m r m' resp)
    (hi : FrameInv m) (hg : ∃ page, m.getPage r = .ok page) : Residency m r.page m' := by
  have hacc : ∀ q, (m.pageTable.accessPage r.page).Valid q ↔ m.pageTable.Valid q := by
    intro q
    rw [PageTable.accessPage_valid]
  cases ha with
  | @tlbHit f hl => exact .hit (fun hnone => by rw [hl] at hnone; cases hnone) hacc rfl
  | pageHit _ hv => exact .hit (fun _ => hv) hacc rfl
  | failed _ _ he => obtain ⟨page, hok⟩ := hg; rw [hok] at he; cases he
  | @freeFrame page f rest hl hp _ hs =>
    refine .load hl hp ?_ (fun q => ?_) rfl
    · have := (hi.free_cons hs).2.1; omega
    · rw [afterLoad_valid, hacc]
  | @eviction page v hl hp _ hs hvict =>
    refine .replace hl hp ?_ (victim_oldest_of_fault hp hvict) (fun q => ?_) rfl
    · have := hi.full hs; omega
    · rw [afterLoad_valid, evictedTable_valid]

/-- A TLB miss that is served enters the page; a hit leaves the TLB alone. -/
theorem Access.tlb {m m' : VirtualMemoryManager} {r : Request} {resp : Response} (ha : Access m r m' resp)
    (hg : ∃ page, m.getPage r = .ok page) :
    (m.tlb.lookup r.page ≠ none ∧ m'.tlb = m.tlb) ∨
      (m.tlb.lookup r.page = none ∧ ∃ f, m'.tlb = m.tlb.addEntry ⟨r.page, f, true⟩) := by
  cases ha with
  | tlbHit hl => exact .inl ⟨by rw [hl]; exact Option.some_ne_none _, rfl⟩
  | pageHit hl _ => exact .inr ⟨hl, _, rfl⟩
  | failed _ _ he => obtain ⟨page, hok⟩ := hg; rw [hok] at he; cases he
  | freeFrame hl _ _ _ => exact .inr ⟨hl, _, rfl⟩
  | eviction hl _ _ _ _ => exact .inr ⟨hl, _, rfl⟩

/-! ## The two runs -/

/-- The manager `m` with fewer frames next to `m'` with more, after the same requests under LRU;
their clocks and counters are at most `c`. -/
structure Inclusion (c : Int) (m m' : VirtualMemoryManager) : Prop where
  inv : FrameInv m
  inv' : FrameInv m'
  ticking : Ticking m.pageTable c
  ticking' : Ticking m'.pageTable c
  lru : m.pageTable.strategy = .lru
  lru' : m'.pageTable.strategy = .lru
  store : m'.backingStore = m.backingStore
  frames : m.numberOfFramesInPm ≤ m'.numberOfFramesInPm
  tlb : m.tlb.SamePages m'.tlb
  valid : ∀ p, m.pageTable.Valid p → m'.pageTable.Valid p
  order : SameOrder m.pageTable.Valid m.pageTable.stamp m'.pageTable.stamp
  /-- Until the smaller memory is full the two hold the same pages. -/
  free : residents m.pageTable < m.numberOfFramesInPm.toNat → ∀ p, m'.pageTable.Valid p → m.pageTable.Valid p
  faults : m'.pagefaults.toInt ≤ m.pagefaults.toInt
  bound : m.pagefaults.toInt ≤ c

namespace Inclusion

variable {c : Int} {m m' m₁ m₁' : VirtualMemoryManager} {r : Request} {resp resp' : Response} {p : PageNumber}

/-- The valid pages stay included, and equal until the smaller memory is full. -/
theorem valid_step (h : Inclusion c m m') (hs : Residency m p m₁) (hl : Residency m' p m₁')
    (hn : m₁.numberOfFramesInPm = m.numberOfFramesInPm) :
    (∀ q, m₁.pageTable.Valid q → m₁'.pageTable.Valid q) ∧
      (residents m₁.pageTable < m₁.numberOfFramesInPm.toNat → ∀ q, m₁'.pageTable.Valid q → m₁.pageTable.Valid q) := by
  have hmiss := h.tlb.lookup_none p
  rw [hn]
  cases hs with
  | hit hv hva _ =>
    cases hl with
    | hit _ hva' _ =>
      constructor
      · intro q hq
        exact (hva' q).2 (h.valid q ((hva q).1 hq))
      · intro hlt q hq
        rw [residents_congr hva] at hlt
        exact (hva q).2 (h.free hlt q ((hva' q).1 hq))
    | load hnone hp => exact absurd (h.valid p (hv (hmiss.2 hnone))) hp
    | replace hnone hp => exact absurd (h.valid p (hv (hmiss.2 hnone))) hp
  | load hnone hp hfree hva _ =>
    cases hl with
    | hit hv' _ _ => exact absurd (h.free hfree p (hv' (hmiss.1 hnone))) hp
    | load _ _ _ hva' _ =>
      constructor
      · intro q hq
        exact (hva' q).2 (((hva q).1 hq).imp_right (h.valid q))
      · intro _ q hq
        exact (hva q).2 (((hva' q).1 hq).imp_right (h.free hfree q))
    | replace _ _ hfull _ _ _ =>
      -- both hold the same pages, so the larger memory cannot be full
      have hsame : residents m'.pageTable = residents m.pageTable :=
        residents_congr fun q => ⟨h.free hfree q, h.valid q⟩
      have := h.frames
      omega
  | @replace v hnone hp hfull hold hva _ =>
    have hstay : residents m₁.pageTable = residents m.pageTable := residents_swap hp hold.1 hva
    refine ⟨?_, fun hlt => by omega⟩
    cases hl with
    | hit hv' hva' _ =>
      intro q hq
      rw [hva']
      rcases (hva q).1 hq with rfl | ⟨hv, _⟩
      · exact hv' (hmiss.1 hnone)
      · exact h.valid q hv
    | load _ _ _ hva' _ => exact fun q hq => (hva' q).2 (((hva q).1 hq).imp_right fun hv => h.valid q hv.1)
    | @replace w _ _ _ hold' hva' _ =>
      intro q hq
      refine (hva' q).2 (((hva q).1 hq).imp_right fun ⟨hv, hne⟩ => ⟨h.valid q hv, ?_⟩)
      -- were the larger run's victim in the smaller memory, it would be the victim there
      rintro rfl
      exact hne (Oldest.inclusion h.valid h.order h.ticking.stamped hold hold' hv)

/-- A fault with more frames is a fault with fewer. -/
theorem faults_step (h : Inclusion c m m') (hc : c < 2 ^ 31 - 1) (hs : Residency m p m₁) (hl : Residency m' p m₁') :
    m₁'.pagefaults.toInt ≤ m₁.pagefaults.toInt ∧ m₁.pagefaults.toInt ≤ c + 1 := by
  have hmiss := h.tlb.lookup_none p
  have hle := h.faults
  have hb := h.bound
  have hinc : (m.pagefaults + 1).toInt = m.pagefaults.toInt + 1 := toInt_incr (by omega)
  have hinc' : (m'.pagefaults + 1).toInt = m'.pagefaults.toInt + 1 := toInt_incr (by omega)
  rcases hs.faults with ⟨hf, hv⟩ | ⟨hf, _, _⟩ <;> rcases hl.faults with ⟨hf', _⟩ | ⟨hf', hnone, hp⟩ <;> rw [hf, hf']
  · omega
  · exact absurd (h.valid p (hv (hmiss.2 hnone))) hp
  · omega
  · omega

theorem step (h : Inclusion c m m') (hc : c + 2 < 2 ^ 31 - 1) (hg : ∃ page, m.getPage r = .ok page)
    (ha : Access m r m₁ resp) (ha' : Access m' r m₁' resp') : Inclusion (c + 3) m₁ m₁' := by
  have hg' : ∃ page, m'.getPage r = .ok page := by unfold getPage; rw [h.store]; exact hg
  have hs := ha.residency h.inv hg
  have hl := ha'.residency h.inv' hg'
  obtain ⟨hn, hb, hstr⟩ := ha.config
  obtain ⟨hn', hb', hstr'⟩ := ha'.config
  obtain ⟨hvalid, hfree⟩ := h.valid_step hs hl hn
  obtain ⟨hfaults, hbound⟩ := h.faults_step (by omega) hs hl
  refine {
    inv := h.inv.access ha
    inv' := h.inv'.access ha'
    ticking := ticking_access h.ticking hc ha
    ticking' := ticking_access h.ticking' hc ha'
    lru := hstr.trans h.lru
    lru' := hstr'.trans h.lru'
    store := by rw [hb, hb', h.store]
    frames := by rw [hn, hn']; exact h.frames
    tlb := ?_
    valid := hvalid
    order := h.order.newest (ha.newest h.lru h.ticking (by omega)) (ha'.newest h.lru' h.ticking' (by omega)) hvalid
    free := hfree
    faults := hfaults
    bound := by omega }
  -- the TLBs list the same pages, so both requests hit or both enter the page
  have hmiss := h.tlb.lookup_none r.page
  rcases ha.tlb hg with ⟨hhit, ht⟩ | ⟨hnone, f, ht⟩ <;> rcases ha'.tlb hg' with ⟨hhit', ht'⟩ | ⟨hnone', f', ht'⟩
  · rw [ht, ht']; exact h.tlb
  · exact absurd (hmiss.2 hnone') hhit
  · exact absurd (hmiss.1 hnone) hhit'
  · rw [ht, ht']; exact h.tlb.addEntry rfl rfl

theorem initial {n k : Int} (hn : 1 ≤ n) (hnk : n ≤ k) (bs : BackingStore) :
    Inclusion 0 (initial n .lru bs) (VirtualMemoryManager.initial k .lru bs) where
  inv := frameInv_initial hn .lru bs
  inv' := frameInv_initial (le_trans hn hnk) .lru bs
  ticking := Ticking.initial .lru
  ticking' := Ticking.initial .lru
  lru := rfl
  lru' := rfl
  store := rfl
  frames := hnk
  tlb := Tlb.SamePages.refl _
  valid := fun _ hp => hp
  order := SameOrder.refl _ _
  free := fun _ _ hp => hp
  faults := le_refl _
  bound := show (0 : Int32).toInt ≤ 0 by decide

end Inclusion

/-- No Belady anomaly under LRU: of two managers over the same store, one with `n` and one with
`k ≥ n` frames, the one with more frames has no more page faults after any prefix of the requests,
and its valid pages include those of the other. -/
theorem lru_more_frames {n k : Int} (hn : 1 ≤ n) (hnk : n ≤ k) (bs : BackingStore) {rs : List Request}
    (hlen : rs.length < 2 ^ 29)
    (hio : ∀ r ∈ rs, ∃ page, bs.getPage (r.page.val * pageSize) pageSize r.io = .ok page) :
    ∀ pre, pre <+: rs → ∃ m m' resps resps', run readByte (initial n .lru bs) pre = .ok (m, resps) ∧
      run readByte (initial k .lru bs) pre = .ok (m', resps') ∧ m'.pagefaults.toInt ≤ m.pagefaults.toInt ∧
      ∀ p, m.pageTable.Valid p → m'.pageTable.Valid p := by
  intro pre hpre
  have hle := hpre.length_le
  obtain ⟨m, m', resps, resps', hr, hr', h, _⟩ := run_pair (s := initial n .lru bs)
    (t := initial k .lru bs) (Q := fun _ _ => True)
    (R := fun seen m m' => Inclusion (3 * (seen.length : Int)) m m' ∧ m.backingStore = bs)
    (fun seen r post m m' hall ⟨h, hb⟩ _ => by
      have hl : seen.length + 1 ≤ pre.length := by rw [hall]; simp
      obtain ⟨m₁, o, hstep, ha, _, _⟩ := readByte_step h.inv h.ticking (by omega) r
      obtain ⟨m₁', o', hstep', ha', _, _⟩ := readByte_step h.inv' h.ticking' (by omega) r
      have hg : ∃ page, m.getPage r = .ok page := by
        unfold getPage; rw [hb]
        exact hio r (hpre.subset (by rw [hall]; simp))
      refine ⟨m₁, m₁', o, o', hstep, hstep', ⟨?_, ha.config.2.1.trans hb⟩, trivial⟩
      rw [show (3 * ((seen ++ [r]).length : Int)) = 3 * (seen.length : Int) + 3 by simp; omega]
      exact h.step (by omega) hg ha ha')
    ⟨by simpa using Inclusion.initial hn hnk bs, rfl⟩ (along_true readByte pre _)
  exact ⟨m, m', resps, resps', hr, hr', h.1.faults, h.1.valid⟩

/-- Three pages in two and in three frames. -/
theorem lru_more_frames_two_three :
    ∃ m m' resps resps', run readByte (initial 2 .lru ⟨some ⟨65536, fun _ => 7⟩⟩)
        [.served 0, .served 256, .served 512] = .ok (m, resps) ∧
      run readByte (initial 3 .lru ⟨some ⟨65536, fun _ => 7⟩⟩)
        [.served 0, .served 256, .served 512] = .ok (m', resps') ∧
      m'.pagefaults.toInt ≤ m.pagefaults.toInt ∧ ∀ p, m.pageTable.Valid p → m'.pageTable.Valid p :=
  lru_more_frames (by decide) (by decide) _ (by decide)
    (by simp [Request.served, BackingStore.getPage, BackingStore.lseek]) _ (List.prefix_refl _)

end VirtualMemoryManager

end UnixSysProg.Vmm2
