/-
Demand paging in `pa3_3/VMM2` against its purpose: a request should answer the byte the backing
store holds at the virtual address. Every valid page's frame holds the store's page, and a TLB entry
names the frame of its page as long as the page is valid; but `Tlb::invalidate` leaves the entry of
an evicted page in place, and a request that hits such an entry reads the page now in the frame.
-/
import UnixSysProg.Vmm2.Frames
import Mathlib.Data.Fintype.Fin

namespace UnixSysProg.Vmm2

open UnixSysProg.Lib UnixSysProg.Vmm

namespace VirtualMemoryManager

/-! ## Coherence of the TLB -/

/-- Every valid TLB entry names a frame in use, and the frame of its page if that page is valid. -/
def Coherent (m : VirtualMemoryManager) : Prop :=
  m.tlb.All fun p f => f.val < residents m.pageTable ∧ (m.pageTable.Valid p → m.pageTable.frame p = f)

theorem coherent_initial (n : Int) (s : ReplacementStrategy) (bs : BackingStore) : Coherent (initial n s bs) :=
  Tlb.all_initial _

theorem Coherent.access {m m' : VirtualMemoryManager} {r : Request} {resp : Response} (h : Coherent m)
    (hf : FrameInv m) (ha : Access m r m' resp) : Coherent m' := by
  have hacc : ∀ p, (m.pageTable.accessPage p).Valid = m.pageTable.Valid := m.pageTable.accessPage_valid
  have hres : residents (m.pageTable.accessPage r.page) = residents m.pageTable :=
    residents_congr fun q => by rw [hacc]
  have hlooked : m.tlb.All fun p f => f.val < residents (m.pageTable.accessPage r.page) ∧
      ((m.pageTable.accessPage r.page).Valid p → (m.pageTable.accessPage r.page).frame p = f) := by
    refine Tlb.All.mono h fun p f hq => ?_
    rw [hres, hacc, PageTable.accessPage_frame]
    exact hq
  cases ha with
  | tlbHit _ => exact hlooked
  | pageHit _ hv =>
    refine hlooked.addEntry ?_
    rw [hres, hacc, PageTable.accessPage_frame]
    exact ⟨hf.below _ hv, fun _ => rfl⟩
  | failed _ _ _ => exact hlooked
  | @freeFrame page f rest hl hp _ hs =>
    have hva := fun q => afterLoad_valid m r.page page f ⟨rest⟩ (m.pageTable.accessPage r.page) q
    have hfr := fun q => afterLoad_frame m r.page page f ⟨rest⟩ (m.pageTable.accessPage r.page) q
    have hres' := residents_insert hp (fun q => by rw [hva, hacc])
    have hf' : f.val = residents m.pageTable := by have := (hf.free_cons hs).1; omega
    refine Tlb.All.addEntry (Tlb.All.mono (Tlb.All.miss h hl) ?_) ?_
    · rintro q g ⟨hq, hne⟩
      rw [hres', hva, hfr, hacc, if_neg hne, PageTable.accessPage_frame]
      exact ⟨by omega, fun hv => hq.2 (hv.resolve_left hne)⟩
    · rw [hres', hfr, if_pos rfl]
      exact ⟨by simp only; omega, fun _ => rfl⟩
  | @eviction page v hl hp _ _ hvict =>
    have hv := victim_valid hvict
    have hva := fun q => afterLoad_valid m r.page page (m.pageTable.frame v) m.workingSet (m.evictedTable r.page v) q
    have hfr := fun q => afterLoad_frame m r.page page (m.pageTable.frame v) m.workingSet (m.evictedTable r.page v) q
    have hres' := residents_swap hp hv (fun q => by rw [hva, evictedTable_valid])
    refine Tlb.All.addEntry (Tlb.All.mono (Tlb.All.miss h hl) ?_) ?_
    · rintro q g ⟨hq, hne⟩
      rw [hres', hva, hfr, evictedTable_valid, if_neg hne, evictedTable_frame]
      exact ⟨hq.1, fun hv => hq.2 (hv.resolve_left hne).1⟩
    · rw [hres', hfr, if_pos rfl]
      exact ⟨hf.below v hv, fun _ => rfl⟩

/-! ## Frame contents -/

/-- Every valid page's frame holds contents related to the page by `Q`. -/
def Holds (Q : PageNumber → Page → Prop) (m : VirtualMemoryManager) : Prop :=
  ∀ p, m.pageTable.Valid p → Q p (m.physicalMemory.frames (m.pageTable.frame p))

theorem holds_initial (Q : PageNumber → Page → Prop) (n : Int) (s : ReplacementStrategy) (bs : BackingStore) :
    Holds Q (initial n s bs) := fun p hp => by cases hp

theorem Holds.access {Q : PageNumber → Page → Prop} {m m' : VirtualMemoryManager} {r : Request} {resp : Response}
    (h : Holds Q m) (hf : FrameInv m)
    (hg : m.tlb.lookup r.page = none → ¬ m.pageTable.Valid r.page → ∀ page, m.getPage r = .ok page → Q r.page page)
    (ha : Access m r m' resp) : Holds Q m' := by
  have hlooked : ∀ p, (m.pageTable.accessPage r.page).Valid p →
      Q p (m.physicalMemory.frames ((m.pageTable.accessPage r.page).frame p)) := by
    intro p hp
    rw [PageTable.accessPage_frame]
    exact h p (by rwa [PageTable.accessPage_valid] at hp)
  cases ha with
  | tlbHit _ => exact hlooked
  | pageHit _ _ => exact hlooked
  | failed _ _ _ => exact hlooked
  | @freeFrame page g rest hl hp hget hs =>
    intro q hq
    rw [afterLoad_valid, PageTable.accessPage_valid] at hq
    rw [afterLoad_frame, PageTable.accessPage_frame]
    by_cases hqp : q = r.page
    · rw [if_pos hqp, hqp, afterLoad_frames_self]; exact hg hl hp page hget
    · have hv := hq.resolve_left hqp
      -- the free frame is above every frame in use
      have hne : m.pageTable.frame q ≠ g := by
        intro he
        have hlt := hf.below q hv; have := (hf.free_cons hs).1
        rw [he] at hlt; omega
      rw [if_neg hqp, afterLoad_frames_ne _ _ _ _ _ _ hne]; exact h q hv
  | @eviction page v hl hp hget _ hvict =>
    intro q hq
    rw [afterLoad_valid, evictedTable_valid] at hq
    rw [afterLoad_frame, evictedTable_frame]
    by_cases hqp : q = r.page
    · rw [if_pos hqp, hqp, afterLoad_frames_self]; exact hg hl hp page hget
    · obtain ⟨hv, hqv⟩ := hq.resolve_left hqp
      have hne : m.pageTable.frame q ≠ m.pageTable.frame v := fun he => hqv (hf.inj q v hv (victim_valid hvict) he)
      rw [if_neg hqp, afterLoad_frames_ne _ _ _ _ _ _ hne]; exact h q hv

/-- Every valid page's frame holds the store's page. -/
def Loaded (f : StoreFile) (m : VirtualMemoryManager) : Prop :=
  Holds (fun p page => page = f.page (p.val * pageSize)) m

theorem loaded_initial (f : StoreFile) (n : Int) (s : ReplacementStrategy) (bs : BackingStore) :
    Loaded f (initial n s bs) := holds_initial _ n s bs

theorem Loaded.access {f : StoreFile} {m m' : VirtualMemoryManager} {r : Request} {resp : Response} (h : Loaded f m)
    (hf : FrameInv m) (hg : ∀ page, m.getPage r = .ok page → page = f.page (r.page.val * pageSize))
    (ha : Access m r m' resp) : Loaded f m' :=
  Holds.access h hf (fun _ _ => hg) ha

/-- A frame in use has an owner. -/
theorem FrameInv.owner {m : VirtualMemoryManager} (h : FrameInv m) {f : FrameNumber}
    (hf : f.val < residents m.pageTable) : ∃ p, m.pageTable.Valid p ∧ m.pageTable.frame p = f := by
  have himg : (Finset.univ.filter m.pageTable.Valid).image m.pageTable.frame =
      Finset.univ.filter fun g : FrameNumber => g.val < residents m.pageTable := by
    refine Finset.eq_of_subset_of_card_le (fun g hg => ?_) ?_
    · obtain ⟨p, hp, rfl⟩ := Finset.mem_image.1 hg
      exact Finset.mem_filter.2 ⟨Finset.mem_univ _, h.below p (Finset.mem_filter.1 hp).2⟩
    · rw [Finset.card_image_of_injOn fun p hp q hq he =>
        h.inj p q (Finset.mem_filter.1 hp).2 (Finset.mem_filter.1 hq).2 he]
      have hle := residents_le m.pageTable
      rw [Fin.card_filter_val_lt]
      exact min_le_right _ _
  have hmem : f ∈ Finset.univ.filter fun g : FrameNumber => g.val < residents m.pageTable :=
    Finset.mem_filter.2 ⟨Finset.mem_univ _, hf⟩
  rw [← himg] at hmem
  obtain ⟨p, hp, he⟩ := Finset.mem_image.1 hmem
  exact ⟨p, (Finset.mem_filter.1 hp).2, he⟩

/-! ## Transparency -/

/-- A request hits a TLB entry whose page has been evicted. -/
def StaleHit (m : VirtualMemoryManager) (r : Request) : Prop :=
  m.tlb.lookup r.page ≠ none ∧ ¬ m.pageTable.Valid r.page

instance (m : VirtualMemoryManager) (r : Request) : Decidable (StaleHit m r) := inferInstanceAs (Decidable (_ ∧ _))

/-- Unless it hits a stale entry, a successful request leaves its page valid and reads the frame of its page. -/
theorem Access.answers {m m' : VirtualMemoryManager} {r : Request} {resp : Response} (ha : Access m r m' resp)
    (hok : resp.status = statusSuccess) (hc : Coherent m) (hfresh : ¬ StaleHit m r) : m'.pageTable.Valid r.page ∧
      resp = .ofFrame m'.physicalMemory.frames (m'.pageTable.frame r.page) r.address := by
  have hvalid : ∀ {p}, m.pageTable.Valid p → (m.pageTable.accessPage r.page).Valid p := fun hv => by
    rwa [PageTable.accessPage_valid]
  have hframe : ∀ {p}, (m.pageTable.accessPage r.page).frame p = m.pageTable.frame p :=
    m.pageTable.accessPage_frame _ _
  cases ha with
  | @tlbHit g hl =>
    have hv : m.pageTable.Valid r.page := by
      by_contra hv
      exact hfresh ⟨by rw [hl]; exact Option.some_ne_none _, hv⟩
    refine ⟨hvalid hv, ?_⟩
    show _ = Response.ofFrame m.physicalMemory.frames ((m.pageTable.accessPage r.page).frame r.page) r.address
    rw [hframe, (Tlb.All.lookup hc hl).2 hv]
  | pageHit _ hv =>
    refine ⟨hvalid hv, ?_⟩
    show _ = Response.ofFrame m.physicalMemory.frames ((m.pageTable.accessPage r.page).frame r.page) r.address
    rw [hframe]
  | failed _ _ _ => cases hok
  | freeFrame _ _ _ _ => exact ⟨(afterLoad_valid ..).2 (.inl rfl), by rw [afterLoad_frame, if_pos rfl]; rfl⟩
  | eviction _ _ _ _ _ => exact ⟨(afterLoad_valid ..).2 (.inl rfl), by rw [afterLoad_frame, if_pos rfl]; rfl⟩

theorem Access.delivers {f : StoreFile} {m m' : VirtualMemoryManager} {r : Request} {resp : Response}
    (h : Loaded f m) (hc : Coherent m) (hg : m.getPage r = .ok (f.page (r.page.val * pageSize)))
    (hfresh : ¬ StaleHit m r) (ha : Access m r m' resp) : Delivers f r resp := by
  cases ha with
  | tlbHit hl =>
    have hv : m.pageTable.Valid r.page := by
      by_contra hv; exact hfresh ⟨by rw [hl]; exact Option.some_ne_none _, hv⟩
    have hfr := (Tlb.All.lookup hc hl).2 hv
    exact delivers_ofFrame (by rw [← hfr]; exact h _ hv)
  | pageHit _ hv => exact delivers_ofFrame (h _ hv)
  | failed _ _ he => rw [hg] at he; cases he
  | freeFrame _ _ hget _ =>
    rw [hg] at hget; cases hget
    exact delivers_ofFrame (Function.update_self ..)
  | eviction _ _ hget _ _ =>
    rw [hg] at hget; cases hget
    exact delivers_ofFrame (Function.update_self ..)

/-- The request is not answered from the TLB entry of an evicted page, and should it need a victim
the search finds one (it compares `int` stamps, which wrap after 2^31 steps of the clock). -/
def Answerable (m : VirtualMemoryManager) (r : Request) : Prop := ¬ StaleHit m r ∧ VictimFound m r

instance (m : VirtualMemoryManager) (r : Request) : Decidable (Answerable m r) := inferInstanceAs (Decidable (_ ∧ _))

theorem getPage_reads {m : VirtualMemoryManager} {f : StoreFile} {r : Request} (hb : m.backingStore = ⟨some f⟩)
    (hr : r.Reads f) : m.getPage r = .ok (f.page (r.page.val * pageSize)) := by
  obtain ⟨f', hf, _, hg⟩ := getPage_readsAll hr
  cases hf
  rw [getPage, hb]
  exact hg

/-- Every request of the run succeeds and delivers the store's byte. -/
def Transparent (f : StoreFile) (m : VirtualMemoryManager) (rs : List Request) : Prop :=
  ∃ m' resps, run readByte m rs = .ok (m', resps) ∧ List.Forall₂ (Delivers f) rs resps

/-- When the pages are read in full, a run whose requests are all answerable is transparent. -/
theorem transparent_of_answerable {n : Int} (hn : 1 ≤ n) (s : ReplacementStrategy) {f : StoreFile}
    {rs : List Request} (hio : ∀ r ∈ rs, r.Reads f)
    (hc : Along readByte Answerable (initial n s ⟨some f⟩) rs) : Transparent f (initial n s ⟨some f⟩) rs := by
  obtain ⟨m, resps, hr, hP⟩ := run_total
    (P := fun pre os m => FrameInv m ∧ m.backingStore = ⟨some f⟩ ∧ Coherent m ∧ Loaded f m ∧
      List.Forall₂ (Delivers f) pre os)
    (fun pre r post os m hall ⟨hi, hb, hco, hlo, hd⟩ ha => by
      have hg := getPage_reads hb (hio r (by rw [hall]; simp))
      obtain ⟨m', resp, hr, hacc⟩ := readByte_access hi r ha.2
      refine ⟨m', resp, hr, hi.access hacc, hacc.config.2.1.trans hb, hco.access hi hacc,
        hlo.access hi (fun page hp => by rw [hg] at hp; cases hp; rfl) hacc, ?_⟩
      exact List.rel_append hd (.cons (hacc.delivers hlo hco hg ha.1) .nil))
    ⟨frameInv_initial hn s _, rfl, coherent_initial n s _, loaded_initial f n s _, .nil⟩ hc
  exact ⟨m, resps, hr, hP.2.2.2.2⟩

/-! ## Necessity -/

/-- Two managers in the same state but for the store and the contents of memory. -/
def SameControl (m m' : VirtualMemoryManager) : Prop :=
  ∃ pm bs, m' = { m with physicalMemory := pm, backingStore := bs }

/-- When both stores answer, what a request does to the control state does not depend on the store. -/
theorem Access.control {m m' m₁ : VirtualMemoryManager} {r : Request} {resp : Response} {page page' : Page}
    (ha : Access m r m₁ resp) (hs : SameControl m m') (hg : m.getPage r = .ok page) (hg' : m'.getPage r = .ok page') :
    ∃ m₁' resp', Access m' r m₁' resp' ∧ SameControl m₁ m₁' := by
  obtain ⟨pm, bs, rfl⟩ := hs
  cases ha with
  | tlbHit hl => exact ⟨_, _, .tlbHit hl, ⟨_, _, rfl⟩⟩
  | pageHit hl hv => exact ⟨_, _, .pageHit hl hv, ⟨_, _, rfl⟩⟩
  | failed _ _ he => rw [hg] at he; cases he
  | freeFrame hl hv _ hs => exact ⟨_, _, .freeFrame hl hv hg' hs, ⟨_, _, rfl⟩⟩
  | eviction hl hv _ hs hvict => exact ⟨_, _, .eviction hl hv hg' hs hvict, ⟨_, _, rfl⟩⟩

theorem SameControl.frameInv {m m' : VirtualMemoryManager} (hs : SameControl m m') (h : FrameInv m) : FrameInv m' := by
  obtain ⟨pm, bs, rfl⟩ := hs
  exact ⟨h.pos, h.le, h.free, h.below, h.inj⟩

/-- Whether the requests of a run are answerable does not depend on what the store holds. -/
theorem along_answerable_store {f g : StoreFile} : ∀ {rs : List Request} {m m' : VirtualMemoryManager},
    (∀ r ∈ rs, r.Reads f) → (∀ r ∈ rs, r.Reads g) → FrameInv m → m.backingStore = ⟨some f⟩ →
      m'.backingStore = ⟨some g⟩ → SameControl m m' → Along readByte Answerable m rs → Along readByte Answerable m' rs
  | [], _, _, _, _, _, _, _, _, _ => trivial
  | r :: rs, m, m', hf, hg, hi, hb, hb', hs, hc => by
    obtain ⟨m₁, resp, hstep, ha⟩ := readByte_access hi r hc.1.2
    obtain ⟨m₁', resp', ha', hs'⟩ := ha.control hs (getPage_reads hb (hf r (List.mem_cons_self ..)))
      (getPage_reads hb' (hg r (List.mem_cons_self ..)))
    constructor
    · obtain ⟨pm, bs, rfl⟩ := hs; exact hc.1
    · intro m₂ o ho
      rw [ha'.readByte (hs.frameInv hi)] at ho
      cases ho
      exact along_answerable_store (fun q hq => hf q (List.mem_cons_of_mem _ hq))
        (fun q hq => hg q (List.mem_cons_of_mem _ hq)) (hi.access ha) (ha.config.2.1.trans hb) (ha'.config.2.1.trans hb') hs'
        (hc.2 m₁ resp hstep)

/-- A store each of whose bytes is its page's number. -/
def numberedStore : StoreFile := ⟨65536, fun i => BitVec.ofNat 8 (i / pageSize)⟩

theorem numberedStore_page (p : PageNumber) (i : Fin pageSize) :
    (numberedStore.page (p.val * pageSize) i).toNat = p.val := by
  have hi : i.val < 256 := i.isLt
  have hd : (p.val * 256 + i.val) / 256 = p.val := by omega
  have := p.isLt
  show (BitVec.ofNat 8 ((p.val * 256 + i.val) / 256)).toNat = p.val
  rw [hd, BitVec.toNat_ofNat]
  omega

theorem numberedStore_reads (address : VirtualAddress) : (Request.served address).Reads numberedStore :=
  Request.reads_of_succeeds (le_refl _) (Request.served_succeeds address)

/-- A request that hits a stale entry on the numbered store gets another page's number. -/
theorem StaleHit.not_delivers {m m' : VirtualMemoryManager} {r : Request} {resp : Response} (hs : StaleHit m r)
    (hi : FrameInv m) (hco : Coherent m) (hlo : Loaded numberedStore m) (hr : m.readByte r = .ok (m', resp)) :
    ¬ Delivers numberedStore r resp := by
  rintro ⟨_, hbyte⟩
  cases hl : m.tlb.lookup r.page with
  | none => exact hs.1 hl
  | some f =>
    rw [readByte_tlbHit hl] at hr
    cases hr
    obtain ⟨q, hq, hqf⟩ := hi.owner (Tlb.All.lookup hco hl).1
    have hframe : m.physicalMemory.frames f = numberedStore.page (q.val * pageSize) := by rw [← hqf]; exact hlo q hq
    have hown := numberedStore_page q ⟨_, getOffsetFromLogicalAddress_lt r.address⟩
    have hreq := numberedStore_page r.page ⟨_, getOffsetFromLogicalAddress_lt r.address⟩
    simp only [Response.ofFrame, hframe, Option.some.injEq] at hbyte
    -- both are the byte delivered, so the owner of the frame would be the requested page
    have hsame : numberedStore.page (r.page.val * pageSize) ⟨_, getOffsetFromLogicalAddress_lt r.address⟩ =
        numberedStore.byte r.address.toNat := congrArg numberedStore.byte (page_offset_eq r.address)
    rw [hbyte, ← hsame, hreq] at hown
    exact hs.2 (Fin.ext hown ▸ hq)

/-- A transparent run on the numbered store has only answerable requests. -/
theorem answerable_of_transparent : ∀ {rs : List Request} {m : VirtualMemoryManager},
    (∀ r ∈ rs, r.Reads numberedStore) → FrameInv m → m.backingStore = ⟨some numberedStore⟩ → Coherent m →
      Loaded numberedStore m → Transparent numberedStore m rs → Along readByte Answerable m rs
  | [], _, _, _, _, _, _, _ => trivial
  | r :: rs, m, hio, hi, hb, hco, hlo, ⟨m', resps, hr, hd⟩ => by
    obtain ⟨m₁, o, os, hstep, hrest, rfl⟩ := run_cons_ok.1 hr
    obtain ⟨hd1, hd2⟩ := List.forall₂_cons.1 hd
    have hg := getPage_reads hb (hio r (List.mem_cons_self ..))
    have hans : Answerable m r := by
      -- a stale hit delivers another page's number, and without a victim the request does not return
      constructor
      · intro hs
        exact hs.not_delivers hi hco hlo hstep hd1
      · intro hl hv hs
        cases hvict : (m.pageTable.accessPage r.page).victim with
        | some v => exact ⟨v, rfl⟩
        | none => rw [readByte_no_victim hl hv hg hs hvict] at hstep; cases hstep
    obtain ⟨m₂, o', hstep', ha⟩ := readByte_access hi r hans.2
    rw [hstep] at hstep'
    cases hstep'
    refine ⟨hans, fun s' o' ho => ?_⟩
    rw [hstep] at ho
    cases ho
    exact answerable_of_transparent (fun q hq => hio q (List.mem_cons_of_mem _ hq)) (hi.access ha)
      (ha.config.2.1.trans hb) (hco.access hi ha)
      (hlo.access hi (fun page hp => by rw [hg] at hp; cases hp; rfl) ha) ⟨m', os, hrest, hd2⟩

/-- Demand paging, exactly: over a store of at least 65536 bytes whose seeks and reads succeed, a run
whose requests are all answerable is transparent; and a sequence of requests that is transparent
over every such store has only answerable requests. -/
theorem demand_paging_transparent_iff {n : Int} (hn : 1 ≤ n) (s : ReplacementStrategy) {rs : List Request}
    (hio : ∀ r ∈ rs, r.io.Succeeds) :
    (∀ f : StoreFile, 65536 ≤ f.size → Transparent f (initial n s ⟨some f⟩) rs) ↔
      ∀ f : StoreFile, 65536 ≤ f.size → Along readByte Answerable (initial n s ⟨some f⟩) rs := by
  have hreads : ∀ f : StoreFile, 65536 ≤ f.size → ∀ r ∈ rs, r.Reads f :=
    fun f hf r hr => Request.reads_of_succeeds hf (hio r hr)
  have hnumbered := hreads numberedStore (le_refl _)
  constructor
  · intro h f hf
    have hnum := answerable_of_transparent hnumbered (frameInv_initial hn s _) rfl (coherent_initial n s _)
      (loaded_initial _ n s _) (h numberedStore (le_refl _))
    -- which requests are answerable is the same over any store
    exact along_answerable_store hnumbered (hreads f hf) (frameInv_initial hn s _) rfl rfl ⟨_, _, rfl⟩ hnum
  · intro h f hf
    exact transparent_of_answerable hn s (hreads f hf) (h f hf)

/-- Three pages and two frames: page 0 is hit in the TLB and keeps its frame, page 1 leaves for page 2 and is not asked
for again. -/
theorem demand_paging_transparent_two_frames : Transparent numberedStore (initial 2 .lru ⟨some numberedStore⟩)
    [.served 0, .served 256, .served 1, .served 512, .served 2] := by
  have hio : ∀ r ∈ [Request.served 0, .served 256, .served 1, .served 512, .served 2], r.io.Succeeds := by
    simp [Request.served_succeeds]
  have hreads : ∀ f : StoreFile, 65536 ≤ f.size →
      ∀ r ∈ [Request.served 0, .served 256, .served 1, .served 512, .served 2], r.Reads f :=
    fun f hf r hr => Request.reads_of_succeeds hf (hio r hr)
  have hnumbered : Along readByte Answerable (initial 2 .lru ⟨some numberedStore⟩)
      [.served 0, .served 256, .served 1, .served 512, .served 2] := by decide +kernel
  refine (demand_paging_transparent_iff (by decide) .lru hio).2 (fun f hf => ?_) numberedStore (le_refl _)
  exact along_answerable_store (hreads _ (le_refl _)) (hreads f hf) (frameInv_initial (by decide) .lru _) rfl rfl
    ⟨_, _, rfl⟩ hnumbered

/-- With one frame, page 0 requested again after page 1 took its frame is answered with page 1's byte. -/
theorem demand_paging_not_transparent :
    ¬ ∀ (n : Int) (s : ReplacementStrategy) (f : StoreFile) (rs : List Request), 1 ≤ n → 65536 ≤ f.size →
      (∀ r ∈ rs, r.io.Succeeds) → Transparent f (initial n s ⟨some f⟩) rs := by
  intro h
  obtain ⟨m, resps, hr, hd⟩ := h 1 .fifo numberedStore [.served 0, .served 256, .served 0] (by decide) (le_refl _)
    (by simp [Request.served_succeeds])
  have hbytes : (run readByte (initial 1 .fifo ⟨some numberedStore⟩) [.served 0, .served 256, .served 0]).toOption.map
      (fun x => x.2.map (·.byte)) = some [some 0, some 1, some 1] := by decide +kernel
  have hresps : resps.map (·.byte) = [some 0, some 1, some 1] := by
    rw [hr] at hbytes
    exact Option.some.inj hbytes
  obtain ⟨r₀, _, _, h₀, rfl⟩ := List.forall₂_cons_left_iff.1 hd
  obtain ⟨r₁, _, _, h₁, rfl⟩ := List.forall₂_cons_left_iff.1 h₀
  obtain ⟨r₂, _, hd₂, h₂, rfl⟩ := List.forall₂_cons_left_iff.1 h₁
  have hbyte : r₂.byte = some 1 := by simp only [List.map_cons, List.cons.injEq] at hresps; exact hresps.2.2.1
  have hstore : numberedStore.byte (Request.served 0).address.toNat = 0 := by decide
  rw [hd₂.2, hstore] at hbyte
  exact absurd hbyte (by decide)

end VirtualMemoryManager

end UnixSysProg.Vmm2
