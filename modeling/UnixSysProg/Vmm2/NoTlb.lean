/-
The manager of `pa3_3/VMM2` with its TLB removed: every request takes the page-table branch of
`translate` and nothing is entered in the TLB. A TLB hit touches the page's recency stamp just as a
page hit does, so while no stale entry is hit the two machines stay in the same state but for the
TLB and the hit counters; and the machine without a TLB is transparent on every run.
-/
import UnixSysProg.Vmm2.Paging

namespace UnixSysProg.Vmm2

open UnixSysProg.Lib UnixSysProg.Vmm

namespace VirtualMemoryManager

/-- `translate` without the TLB. -/
def translateNoTlb (m : VirtualMemoryManager) (address : VirtualAddress) (io : IoOutcome) :
    Except Undefined (VirtualMemoryManager × Option PhysicalAddress) :=
  match m.lookupPage (getPageNumberFromLogicalAddress address) io with
  | .error e => .error e
  | .ok (m, none) => .ok (m, none)
  | .ok (m, some frameno) => .ok (m, some (physicalAddressOf frameno (getOffsetFromLogicalAddress address)))

/-- `readByte` over it. -/
def readByteNoTlb (m : VirtualMemoryManager) (r : Request) : Except Undefined (VirtualMemoryManager × Response) :=
  match translateNoTlb { m with pagelookups := m.pagelookups + 1 } r.address r.io with
  | .error e => .error e
  | .ok (m, physicalAddress) => .ok (m, respond m.physicalMemory physicalAddress)

/-! ## The machine without a TLB -/

theorem acquireFrame_tlb {m m' : VirtualMemoryManager} {f : FrameNumber} (h : m.acquireFrame = .ok (m', f)) :
    m'.tlb = m.tlb := by
  unfold acquireFrame at h
  split at h
  · cases h; rfl
  · split at h
    · cases h
    · split at h
      · cases h
      · split at h <;> cases h <;> rfl

theorem installPage_tlb (m : VirtualMemoryManager) (p : PageNumber) (e : PageEntry) (page : Page) (f : FrameNumber) :
    (m.installPage p e page f).1.tlb = m.tlb := by
  unfold installPage; split <;> rfl

theorem lookupPage_tlb {m m' : VirtualMemoryManager} {p : PageNumber} {io : IoOutcome} {f : Option FrameNumber}
    (h : m.lookupPage p io = .ok (m', f)) : m'.tlb = m.tlb := by
  unfold lookupPage at h
  rw [PageTable.lookup_eq] at h
  simp only at h
  split at h
  · cases h; rfl
  · unfold pageFault at h
    simp only at h
    split at h
    · cases h; rfl
    · split at h
      · cases h
      · rename_i page _ _ m₁ frameno hacq
        have hi := m₁.installPage_tlb p (m.pageTable.table p) page frameno
        rw [Except.ok.inj h] at hi
        have ha : m₁.tlb = m.tlb := (acquireFrame_tlb hacq :)
        exact hi.trans ha

/-- On a miss it is the machine with a TLB, less the new entry. -/
theorem readByteNoTlb_eq {m : VirtualMemoryManager} {r : Request} (hl : m.tlb.lookup r.page = none) :
    m.readByteNoTlb r = (m.readByte r).map fun x => ({ x.1 with tlb := m.tlb }, x.2) := by
  unfold readByteNoTlb readByte translateNoTlb translate
  simp only
  rw [show getPageNumberFromLogicalAddress r.address = r.page from rfl, hl]
  simp only
  rcases h : lookupPage { m with pagelookups := m.pagelookups + 1 } r.page r.io with e | ⟨m', _ | f⟩
  · rfl
  · have ht : m'.tlb = m.tlb := (lookupPage_tlb h :)
    simp only [Except.map, ← ht]
  · have ht : m'.tlb = m.tlb := (lookupPage_tlb h :)
    simp only [Except.map, ← ht]

theorem readByteNoTlb_initial {m : VirtualMemoryManager} (ht : m.tlb = .initial) (r : Request) :
    m.readByteNoTlb r = (m.readByte r).map fun x => ({ x.1 with tlb := .initial }, x.2) := by
  rw [readByteNoTlb_eq (by rw [ht]; exact Tlb.lookup_initial _), ht]

/-- What holds of a manager whatever its TLB. -/
theorem FrameInv.withTlb {m : VirtualMemoryManager} (h : FrameInv m) (t : Tlb) : FrameInv { m with tlb := t } :=
  ⟨h.pos, h.le, h.free, h.below, h.inj⟩

/-- Without a TLB there is no stale entry to hit, and every run that goes through delivers. -/
theorem delivers_noTlb {f : StoreFile} : ∀ {rs : List Request} {m m' : VirtualMemoryManager} {resps : List Response},
    (∀ r ∈ rs, r.Reads f) → FrameInv m → m.backingStore = ⟨some f⟩ → m.tlb = .initial → Loaded f m →
      run readByteNoTlb m rs = .ok (m', resps) → List.Forall₂ (Delivers f) rs resps
  | [], _, _, _, _, _, _, _, _, hr => by cases hr; exact .nil
  | r :: rs, m, m', _, hio, hi, hb, ht, hlo, hr => by
    obtain ⟨m₁, o, os, hstep, hrest, rfl⟩ := run_cons_ok.1 hr
    have hl : m.tlb.lookup r.page = none := by rw [ht]; exact Tlb.lookup_initial _
    have hco : Coherent m := by unfold Coherent; rw [ht]; exact Tlb.all_initial _
    have hg := getPage_reads hb (hio r (List.mem_cons_self ..))
    rw [readByteNoTlb_initial ht] at hstep
    rcases hread : m.readByte r with e | ⟨m₂, o₂⟩ <;> rw [hread] at hstep <;> cases hstep
    have ha := access_of_readByte hi hread
    have hlo₂ : Loaded f m₂ := hlo.access hi (fun page hp => by rw [hg] at hp; cases hp; rfl) ha
    exact .cons (ha.delivers hlo hco hg fun hs => hs.1 hl)
      (delivers_noTlb (fun q hq => hio q (List.mem_cons_of_mem _ hq)) ((hi.access ha).withTlb .initial)
        (ha.config.2.1.trans hb) rfl hlo₂ hrest)

/-! ## Side by side -/

/-- The same state but for the TLB, here empty, and the hit counters. -/
def LessTlb (m m' : VirtualMemoryManager) : Prop :=
  ∃ pagehits tlbhits, m' = { m with tlb := .initial, pagehits := pagehits, tlbhits := tlbhits }

theorem LessTlb.frameInv {m m' : VirtualMemoryManager} (hs : LessTlb m m') (h : FrameInv m) : FrameInv m' := by
  obtain ⟨_, _, rfl⟩ := hs
  exact ⟨h.pos, h.le, h.free, h.below, h.inj⟩

/-- A request that hits no stale entry is answered alike: a TLB hit by a page hit, anything else by
the same branch. -/
theorem Access.lessTlb {m m' m₁ : VirtualMemoryManager} {r : Request} {resp : Response} (ha : Access m r m₁ resp)
    (hs : LessTlb m m') (hco : Coherent m) (hfresh : ¬ StaleHit m r) :
    ∃ m₁', Access m' r m₁' resp ∧ LessTlb m₁ { m₁' with tlb := .initial } := by
  obtain ⟨_, _, rfl⟩ := hs
  have hl : Tlb.initial.lookup r.page = none := Tlb.lookup_initial _
  cases ha with
  | @tlbHit f hhit =>
    -- the entry is not stale, so the page table has the same frame for the page
    have hv : m.pageTable.Valid r.page := by
      by_contra hv; exact hfresh ⟨by rw [hhit]; exact Option.some_ne_none _, hv⟩
    have hfr := (Tlb.All.lookup hco hhit).2 hv
    subst hfr
    exact ⟨_, .pageHit hl hv, ⟨_, _, rfl⟩⟩
  | pageHit _ hv => exact ⟨_, .pageHit hl hv, ⟨_, _, rfl⟩⟩
  | failed _ hv he => exact ⟨_, .failed hl hv he, ⟨_, _, rfl⟩⟩
  | freeFrame _ hv hg hset => exact ⟨_, .freeFrame hl hv hg hset, ⟨_, _, rfl⟩⟩
  | eviction _ hv hg hset hvict => exact ⟨_, .eviction hl hv hg hset hvict, ⟨_, _, rfl⟩⟩

/-- An answerable request is answered alike, whatever the backing store does. -/
theorem readByte_lessTlb {m m' : VirtualMemoryManager} {r : Request} (hi : FrameInv m) (hco : Coherent m)
    (hs : LessTlb m m') (hr : Answerable m r) : ∃ m₁ m₁' resp, m.readByte r = .ok (m₁, resp) ∧
      m'.readByteNoTlb r = .ok (m₁', resp) ∧ FrameInv m₁ ∧ Coherent m₁ ∧ LessTlb m₁ m₁' := by
  obtain ⟨m₁, resp, hstep, ha⟩ := readByte_access hi r hr.2
  obtain ⟨m₁', ha', hs₁⟩ := ha.lessTlb hs hco hr.1
  have ht : m'.tlb = .initial := by obtain ⟨_, _, rfl⟩ := hs; rfl
  refine ⟨m₁, { m₁' with tlb := .initial }, resp, hstep, ?_, hi.access ha, hco.access hi ha, hs₁⟩
  rw [readByteNoTlb_initial ht, ha'.readByte (hs.frameInv hi)]
  rfl

/-- Request by request the machine as written and the one without a TLB give the same response, and
they end with the same number of page faults and the same valid mappings. -/
def TlbInvisible (m : VirtualMemoryManager) (rs : List Request) : Prop :=
  ∃ m₁ m₂ resps, run readByte m rs = .ok (m₁, resps) ∧ run readByteNoTlb m rs = .ok (m₂, resps) ∧
    m₂.pagefaults = m₁.pagefaults ∧ (∀ p, m₂.pageTable.Valid p ↔ m₁.pageTable.Valid p) ∧
    ∀ p, m₁.pageTable.Valid p → m₂.pageTable.frame p = m₁.pageTable.frame p

theorem tlbInvisible_of_answerable {n : Int} (hn : 1 ≤ n) (s : ReplacementStrategy) (bs : BackingStore)
    {rs : List Request} (hc : Along readByte Answerable (initial n s bs) rs) : TlbInvisible (initial n s bs) rs := by
  obtain ⟨m₁, m₂, resps, resps', hr, hr', ⟨_, _, hs⟩, heq⟩ := run_pair
    (R := fun _ m m' => FrameInv m ∧ Coherent m ∧ LessTlb m m') (Q := Eq)
    (fun _ _ _ _ _ _ ⟨hi, hco, hs⟩ hr => by
      obtain ⟨m₁, m₁', resp, h1, h2, h3⟩ := readByte_lessTlb hi hco hs hr
      exact ⟨m₁, m₁', resp, resp, h1, h2, h3, rfl⟩)
    ⟨frameInv_initial hn s bs, coherent_initial n s bs, _, _, rfl⟩ hc
  rw [List.forall₂_eq_eq_eq] at heq
  subst heq
  refine ⟨m₁, m₂, resps, hr, hr', ?_⟩
  obtain ⟨_, _, rfl⟩ := hs
  exact ⟨rfl, fun _ => Iff.rfl, fun _ _ => rfl⟩

theorem transparent_of_tlbInvisible {n : Int} (hn : 1 ≤ n) (s : ReplacementStrategy) {f : StoreFile}
    {rs : List Request} (hio : ∀ r ∈ rs, r.Reads f) (h : TlbInvisible (initial n s ⟨some f⟩) rs) :
    Transparent f (initial n s ⟨some f⟩) rs := by
  obtain ⟨m₁, m₂, resps, hr, hr', _⟩ := h
  exact ⟨m₁, resps, hr, delivers_noTlb hio (frameInv_initial hn s _) rfl rfl (loaded_initial f n s _) hr'⟩

/-- The TLB is invisible, exactly: a run whose pages are read in full and whose requests are all
answerable is the same with and without the TLB; and a sequence of requests that is the same over
every store its pages can be read from has only answerable requests. -/
theorem tlb_invisible_iff {n : Int} (hn : 1 ≤ n) (s : ReplacementStrategy) (rs : List Request) :
    (∀ f : StoreFile, (∀ r ∈ rs, r.Reads f) → TlbInvisible (initial n s ⟨some f⟩) rs) ↔
      ∀ f : StoreFile, (∀ r ∈ rs, r.Reads f) → Along readByte Answerable (initial n s ⟨some f⟩) rs := by
  constructor
  · intro h f hf
    have hnumbered : ∀ r ∈ rs, r.Reads numberedStore :=
      fun r hr => Request.reads_of_succeeds (le_refl _) (hf r hr).succeeds
    have hnum := answerable_of_transparent hnumbered (frameInv_initial hn s _) rfl (coherent_initial n s _)
      (loaded_initial _ n s _) (transparent_of_tlbInvisible hn s hnumbered (h numberedStore hnumbered))
    exact along_answerable_store hnumbered hf (frameInv_initial hn s _) rfl rfl ⟨_, _, rfl⟩ hnum
  · intro h f hf
    exact tlbInvisible_of_answerable hn s _ (h f hf)

/-- Three pages and two frames: page 0 is hit in the TLB, and page 1 leaves for page 2. -/
theorem tlb_invisible_two_frames : TlbInvisible (initial 2 .lru ⟨some numberedStore⟩)
    [.served 0, .served 256, .served 1, .served 512, .served 2] := by
  have hnumbered : Along readByte Answerable (initial 2 .lru ⟨some numberedStore⟩)
      [.served 0, .served 256, .served 1, .served 512, .served 2] := by decide +kernel
  have hreads : ∀ r ∈ [Request.served 0, .served 256, .served 1, .served 512, .served 2], r.Reads numberedStore := by
    simp [numberedStore_reads]
  refine (tlb_invisible_iff (by decide) .lru _).2 (fun f hf => ?_) numberedStore hreads
  exact along_answerable_store hreads hf (frameInv_initial (by decide) .lru _) rfl rfl ⟨_, _, rfl⟩ hnumbered

/-- With one frame, page 0 requested again after page 1 took its frame: the TLB answers page 1's byte,
the page table faults page 0 in again. -/
theorem tlb_not_invisible :
    ¬ ∀ (n : Int) (s : ReplacementStrategy) (f : StoreFile) (rs : List Request), 1 ≤ n →
      (∀ r ∈ rs, r.Reads f) → TlbInvisible (initial n s ⟨some f⟩) rs := by
  intro h
  obtain ⟨m₁, m₂, resps, hr, hr', _⟩ := h 1 .fifo numberedStore [.served 0, .served 256, .served 0] (by decide)
    (by simp [numberedStore_reads])
  have hne : ((run readByte (initial 1 .fifo ⟨some numberedStore⟩) [.served 0, .served 256, .served 0]).toOption.map
      (·.2)) ≠ (run readByteNoTlb (initial 1 .fifo ⟨some numberedStore⟩)
        [.served 0, .served 256, .served 0]).toOption.map (·.2) := by decide +kernel
  rw [hr, hr'] at hne
  exact hne rfl

end VirtualMemoryManager

end UnixSysProg.Vmm2
