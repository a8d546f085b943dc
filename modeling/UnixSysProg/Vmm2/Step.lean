/-
What one `readByte` request can do (`Access`), said once: a TLB hit, a page hit, a failed backing
store read, a load into a free frame or a load into the frame of an evicted page. The frame
invariant makes these the only outcomes (`readByte_access`): the free stack is the run of frames
not yet handed out, the valid pages own the frames below it, one each, so that the victim's frame
leads `rlookup` back to the victim and `loadFrame` never refuses. Every request keeps it.
-/
import UnixSysProg.Vmm2.Manager
import Mathlib.Data.Fintype.Card
import Mathlib.Data.Finset.Card
import Mathlib.Data.Fintype.Basic
import Mathlib.Data.List.Range

namespace UnixSysProg.Vmm2

open UnixSysProg.Lib UnixSysProg.Vmm

namespace VirtualMemoryManager

/-! ## The states a request can end in -/

/-- The request counted and its page looked up. -/
def lookedUp (m : VirtualMemoryManager) (p : PageNumber) : VirtualMemoryManager :=
  { m with pagelookups := m.pagelookups + 1, pageTable := m.pageTable.accessPage p }

def afterTlbHit (m : VirtualMemoryManager) (p : PageNumber) : VirtualMemoryManager :=
  { m.lookedUp p with tlbhits := m.tlbhits + 1 }

def afterPageHit (m : VirtualMemoryManager) (p : PageNumber) : VirtualMemoryManager :=
  { m.lookedUp p with pagehits := m.pagehits + 1, tlb := m.tlb.addEntry ⟨p, m.pageTable.frame p, true⟩ }

def afterFailure (m : VirtualMemoryManager) (p : PageNumber) : VirtualMemoryManager :=
  { m.lookedUp p with pagefaults := m.pagefaults + 1 }

/-- The page-table entry of page `p` loaded into `frameno`. -/
def loadedEntry (m : VirtualMemoryManager) (p : PageNumber) (frameno : FrameNumber) : PageEntry :=
  { m.pageTable.table p with frameNumber := frameno, isModified := false, isValid := true }

/-- Page `p` loaded into `frameno`, over the free stack and page table the choice of the frame left. -/
def afterLoad (m : VirtualMemoryManager) (p : PageNumber) (page : Page) (frameno : FrameNumber)
    (workingSet : WorkingSet) (pageTable : PageTable) : VirtualMemoryManager :=
  { m.lookedUp p with
    pagefaults := m.pagefaults + 1
    workingSet := workingSet
    pageTable := pageTable.updatePageEntry (m.loadedEntry p frameno) p
    physicalMemory := { m.physicalMemory with frames := Function.update m.physicalMemory.frames frameno page }
    tlb := m.tlb.addEntry ⟨p, frameno, true⟩ }

/-- The page table with the victim `v` of a fault on `p` made invalid. -/
def evictedTable (m : VirtualMemoryManager) (p v : PageNumber) : PageTable :=
  (m.pageTable.accessPage p).updatePageEntry { (m.pageTable.accessPage p).table v with isValid := false } v

/-- The backing store's answer to a request. -/
def getPage (m : VirtualMemoryManager) (r : Request) : Except Errno Page :=
  m.backingStore.getPage (r.page.val * pageSize) pageSize r.io

/-- The request misses both tables, so that `translate` calls `getPage`. -/
def Faults (m : VirtualMemoryManager) (r : Request) : Prop :=
  m.tlb.lookup r.page = none ∧ ¬ m.pageTable.Valid r.page

instance (m : VirtualMemoryManager) (r : Request) : Decidable (m.Faults r) := inferInstanceAs (Decidable (_ ∧ _))

/-- What one request does to the manager, and its response. -/
inductive Access (m : VirtualMemoryManager) (r : Request) : VirtualMemoryManager → Response → Prop
  | tlbHit {f : FrameNumber} : m.tlb.lookup r.page = some f →
      Access m r (m.afterTlbHit r.page) (.ofFrame m.physicalMemory.frames f r.address)
  | pageHit : m.tlb.lookup r.page = none → m.pageTable.Valid r.page →
      Access m r (m.afterPageHit r.page)
        (.ofFrame m.physicalMemory.frames (m.pageTable.frame r.page) r.address)
  | failed {e : Errno} : m.tlb.lookup r.page = none → ¬ m.pageTable.Valid r.page → m.getPage r = .error e →
      Access m r (m.afterFailure r.page) .failed
  | freeFrame {page : Page} {f : FrameNumber} {rest : List Int} : m.tlb.lookup r.page = none →
      ¬ m.pageTable.Valid r.page → m.getPage r = .ok page → m.workingSet.set = (f.val : Int) :: rest →
      Access m r (m.afterLoad r.page page f ⟨rest⟩ (m.pageTable.accessPage r.page))
        (.ofFrame (Function.update m.physicalMemory.frames f page) f r.address)
  | eviction {page : Page} {v : PageNumber} : m.tlb.lookup r.page = none →
      ¬ m.pageTable.Valid r.page → m.getPage r = .ok page → m.workingSet.set = [] →
      (m.pageTable.accessPage r.page).victim = some v →
      Access m r (m.afterLoad r.page page (m.pageTable.frame v) m.workingSet (m.evictedTable r.page v))
        (.ofFrame (Function.update m.physicalMemory.frames (m.pageTable.frame v) page) (m.pageTable.frame v) r.address)

/-- A request changes neither the frame count, nor the backing store, nor the strategy. -/
theorem Access.config {m m' : VirtualMemoryManager} {r : Request} {resp : Response} (h : Access m r m' resp) :
    m'.numberOfFramesInPm = m.numberOfFramesInPm ∧ m'.backingStore = m.backingStore ∧
      m'.pageTable.strategy = m.pageTable.strategy := by
  cases h <;> exact ⟨rfl, rfl, PageTable.accessPage_strategy _ _⟩

/-- A request whose page the store delivers, should it have to be read, succeeds. -/
theorem Access.succeeds {m m' : VirtualMemoryManager} {r : Request} {resp : Response} (ha : Access m r m' resp)
    (hg : m.tlb.lookup r.page = none → ¬ m.pageTable.Valid r.page → ∃ page, m.getPage r = .ok page) :
    resp.status = statusSuccess := by
  cases ha with
  | tlbHit _ => rfl
  | pageHit _ _ => rfl
  | failed hl hv he => obtain ⟨page, hok⟩ := hg hl hv; rw [hok] at he; cases he
  | freeFrame _ _ _ _ => rfl
  | eviction _ _ _ _ _ => rfl

/-! ## The frame invariant -/

/-- The number of valid pages. -/
def residents (t : PageTable) : Nat := (Finset.univ.filter t.Valid).card

/-- The free stack holds the frames from the number of valid pages up to `NumberOfFramesInPm`, and
the valid pages own the frames below, no two the same. -/
structure FrameInv (m : VirtualMemoryManager) : Prop where
  pos : 1 ≤ m.numberOfFramesInPm
  le : residents m.pageTable ≤ m.numberOfFramesInPm.toNat
  free : m.workingSet.set = (List.range' (residents m.pageTable)
    (m.numberOfFramesInPm.toNat - residents m.pageTable)).map fun j : Nat => (j : Int)
  below : ∀ p, m.pageTable.Valid p → (m.pageTable.frame p).val < residents m.pageTable
  inj : ∀ p q, m.pageTable.Valid p → m.pageTable.Valid q → m.pageTable.frame p = m.pageTable.frame q → p = q

theorem residents_le (t : PageTable) : residents t ≤ 256 := by
  have := Finset.card_filter_le (Finset.univ : Finset PageNumber) t.Valid
  simpa [residents] using this

/-- With an invalid page, not all 256 pages are resident. -/
theorem residents_lt {t : PageTable} {p : PageNumber} (hp : ¬ t.Valid p) : residents t < 256 := by
  have : (Finset.univ.filter t.Valid).card < (Finset.univ : Finset PageNumber).card :=
    Finset.card_lt_card (Finset.filter_ssubset.2 ⟨p, Finset.mem_univ p, hp⟩)
  simpa [residents] using this

theorem residents_pos {t : PageTable} {p : PageNumber} (hp : t.Valid p) : 0 < residents t :=
  Finset.card_pos.2 ⟨p, Finset.mem_filter.2 ⟨Finset.mem_univ p, hp⟩⟩

theorem exists_valid {t : PageTable} (h : 0 < residents t) : ∃ p, t.Valid p := by
  obtain ⟨p, hp⟩ := Finset.card_pos.1 h
  exact ⟨p, (Finset.mem_filter.1 hp).2⟩

theorem residents_congr {t u : PageTable} (h : ∀ q, u.Valid q ↔ t.Valid q) : residents u = residents t := by
  unfold residents; congr 1; ext q; simp [h]

/-- One more page valid, one more resident. -/
theorem residents_insert {t u : PageTable} {p : PageNumber} (hp : ¬ t.Valid p)
    (h : ∀ q, u.Valid q ↔ q = p ∨ t.Valid q) : residents u = residents t + 1 := by
  have : Finset.univ.filter u.Valid = insert p (Finset.univ.filter t.Valid) := by ext q; simp [h]
  unfold residents
  rw [this, Finset.card_insert_of_notMem (by simp [hp])]

/-- One page in for another, the same number of residents. -/
theorem residents_swap {t u : PageTable} {p v : PageNumber} (hp : ¬ t.Valid p) (hv : t.Valid v)
    (h : ∀ q, u.Valid q ↔ q = p ∨ (t.Valid q ∧ q ≠ v)) : residents u = residents t := by
  have hu : Finset.univ.filter u.Valid = insert p ((Finset.univ.filter t.Valid).erase v) := by
    ext q; simp [h, and_comm]
  have hpos := residents_pos hv
  unfold residents at hpos ⊢
  rw [hu, Finset.card_insert_of_notMem (by simp [hp]), Finset.card_erase_of_mem (by simpa using hv)]
  omega

/-- The top of the free stack is the first frame not yet handed out. -/
theorem FrameInv.free_cons {m : VirtualMemoryManager} (h : FrameInv m) {top : Int} {rest : List Int}
    (hs : m.workingSet.set = top :: rest) :
    top = residents m.pageTable ∧ residents m.pageTable < m.numberOfFramesInPm.toNat ∧
      rest = (List.range' (residents m.pageTable + 1)
        (m.numberOfFramesInPm.toNat - (residents m.pageTable + 1))).map fun j : Nat => (j : Int) := by
  have hf := h.free
  rw [hs] at hf
  obtain ⟨n, hn⟩ : ∃ n, m.numberOfFramesInPm.toNat - residents m.pageTable = n + 1 := by
    cases hd : m.numberOfFramesInPm.toNat - residents m.pageTable with
    | zero => rw [hd] at hf; simp at hf
    | succ n => exact ⟨n, rfl⟩
  rw [hn, List.range'_succ, List.map_cons, List.cons.injEq] at hf
  refine ⟨hf.1, by omega, ?_⟩
  rw [hf.2]; congr 2; omega

/-- With no free frame left, every frame is owned. -/
theorem FrameInv.full {m : VirtualMemoryManager} (h : FrameInv m) (hs : m.workingSet.set = []) :
    residents m.pageTable = m.numberOfFramesInPm.toNat := by
  have hf := h.free
  rw [hs] at hf
  have hl := congrArg List.length hf
  simp only [List.length_nil, List.length_map, List.length_range'] at hl
  have := h.le
  omega

theorem FrameInv.frame_lt {m : VirtualMemoryManager} (h : FrameInv m) {p : PageNumber} (hp : m.pageTable.Valid p) :
    ((m.pageTable.frame p).val : Int) < m.numberOfFramesInPm := by
  have := h.below p hp; have := h.le; have := h.pos
  omega

theorem frameInv_initial {n : Int} (hn : 1 ≤ n) (s : ReplacementStrategy) (bs : BackingStore) :
    FrameInv (initial n s bs) := by
  have hnone : ∀ p, ¬ (PageTable.initial s).Valid p := fun p hp => by cases hp
  have h0 : residents (PageTable.initial s) = 0 := by
    simp [residents, hnone]
  refine ⟨hn, by simp [initial, h0], ?_, fun p hp => absurd hp (hnone p), fun p _ hp => absurd hp (hnone p)⟩
  simp [initial, h0, WorkingSet.initial_set, List.range_eq_range']

/-! ## Every request keeps it -/

/-- The invariant reads the frame count, the free stack, and each page's validity and frame. -/
theorem FrameInv.congr {m m' : VirtualMemoryManager} (h : FrameInv m)
    (hn : m'.numberOfFramesInPm = m.numberOfFramesInPm) (hs : m'.workingSet = m.workingSet)
    (hv : ∀ q, m'.pageTable.Valid q ↔ m.pageTable.Valid q)
    (hf : ∀ q, m'.pageTable.frame q = m.pageTable.frame q) : FrameInv m' := by
  have hr : residents m'.pageTable = residents m.pageTable := residents_congr hv
  refine ⟨by rw [hn]; exact h.pos, by rw [hr, hn]; exact h.le, by rw [hs, hr, hn]; exact h.free, ?_,
    ?_⟩
  · intro p hp
    rw [hf, hr]; exact h.below p ((hv p).1 hp)
  · intro p q hp hq he
    rw [hf, hf] at he; exact h.inj p q ((hv p).1 hp) ((hv q).1 hq) he

theorem evictedTable_valid (m : VirtualMemoryManager) (p v q : PageNumber) :
    (m.evictedTable p v).Valid q ↔ m.pageTable.Valid q ∧ q ≠ v := by
  rw [evictedTable, PageTable.updatePageEntry_valid, PageTable.accessPage_valid]
  split
  · rename_i h; simp [h]
  · rename_i h; simp [h]

theorem evictedTable_frame (m : VirtualMemoryManager) (p v q : PageNumber) :
    (m.evictedTable p v).frame q = m.pageTable.frame q := by
  rw [evictedTable, PageTable.updatePageEntry_frame]
  split
  · rename_i h; subst h; exact m.pageTable.accessPage_frame p q
  · exact m.pageTable.accessPage_frame p q

theorem afterLoad_valid (m : VirtualMemoryManager) (p : PageNumber) (page : Page) (f : FrameNumber)
    (ws : WorkingSet) (t : PageTable) (q : PageNumber) :
    (m.afterLoad p page f ws t).pageTable.Valid q ↔ q = p ∨ t.Valid q := by
  rw [afterLoad, PageTable.updatePageEntry_valid]
  split
  · rename_i h; simp [h, loadedEntry]
  · rename_i h; simp [h]

theorem afterLoad_frame (m : VirtualMemoryManager) (p : PageNumber) (page : Page) (f : FrameNumber)
    (ws : WorkingSet) (t : PageTable) (q : PageNumber) :
    (m.afterLoad p page f ws t).pageTable.frame q = if q = p then f else t.frame q :=
  PageTable.updatePageEntry_frame t _ p q

theorem afterLoad_frames_self (m : VirtualMemoryManager) (p : PageNumber) (page : Page) (f : FrameNumber)
    (ws : WorkingSet) (t : PageTable) : (m.afterLoad p page f ws t).physicalMemory.frames f = page :=
  Function.update_self ..

theorem afterLoad_frames_ne (m : VirtualMemoryManager) (p : PageNumber) (page : Page) (f : FrameNumber)
    (ws : WorkingSet) (t : PageTable) {g : FrameNumber} (h : g ≠ f) :
    (m.afterLoad p page f ws t).physicalMemory.frames g = m.physicalMemory.frames g :=
  Function.update_of_ne h ..

/-- A load into the first free frame. -/
theorem FrameInv.freeLoad {m : VirtualMemoryManager} (h : FrameInv m) {p : PageNumber} {page : Page}
    {f : FrameNumber} {rest : List Int} (hp : ¬ m.pageTable.Valid p)
    (hs : m.workingSet.set = (f.val : Int) :: rest) :
    FrameInv (m.afterLoad p page f ⟨rest⟩ (m.pageTable.accessPage p)) := by
  obtain ⟨htop, hlt, hrest⟩ := h.free_cons hs
  have hf : f.val = residents m.pageTable := by omega
  have hv : ∀ q, (m.afterLoad p page f ⟨rest⟩ (m.pageTable.accessPage p)).pageTable.Valid q ↔
      q = p ∨ m.pageTable.Valid q := by
    intro q
    rw [afterLoad_valid, PageTable.accessPage_valid]
  have hr := residents_insert hp hv
  have hfr : ∀ q, (m.afterLoad p page f ⟨rest⟩ (m.pageTable.accessPage p)).pageTable.frame q =
      if q = p then f else m.pageTable.frame q := by
    intro q
    rw [afterLoad_frame, PageTable.accessPage_frame]
  refine ⟨h.pos, by rw [hr]; exact hlt, by rw [hr]; exact hrest, ?_, ?_⟩
  · intro q hq
    rw [hfr, hr]
    split
    · omega
    · rename_i hne
      have := h.below q (((hv q).1 hq).resolve_left hne)
      omega
  · intro q q' hq hq' he
    rw [hfr, hfr] at he
    -- the new frame is above every owned one
    have hold : ∀ q, q ≠ p → m.pageTable.Valid q → m.pageTable.frame q ≠ f := by
      intro q _ hq he
      have := h.below q hq; rw [he] at this; omega
    by_cases hqp : q = p <;> by_cases hqp' : q' = p
    · rw [hqp, hqp']
    · rw [if_pos hqp, if_neg hqp'] at he
      exact absurd he.symm (hold q' hqp' (((hv q').1 hq').resolve_left hqp'))
    · rw [if_neg hqp, if_pos hqp'] at he
      exact absurd he (hold q hqp (((hv q).1 hq).resolve_left hqp))
    · rw [if_neg hqp, if_neg hqp'] at he
      exact h.inj q q' (((hv q).1 hq).resolve_left hqp) (((hv q').1 hq').resolve_left hqp') he

/-- A load into the frame of an evicted page. -/
theorem FrameInv.evictionLoad {m : VirtualMemoryManager} (h : FrameInv m) {p v : PageNumber} {page : Page}
    (hp : ¬ m.pageTable.Valid p) (hv : m.pageTable.Valid v) :
    FrameInv (m.afterLoad p page (m.pageTable.frame v) m.workingSet (m.evictedTable p v)) := by
  have hva : ∀ q, (m.afterLoad p page (m.pageTable.frame v) m.workingSet (m.evictedTable p v)).pageTable.Valid q ↔
      q = p ∨ (m.pageTable.Valid q ∧ q ≠ v) := by
    intro q
    rw [afterLoad_valid, evictedTable_valid]
  have hr := residents_swap hp hv hva
  have hfr : ∀ q, (m.afterLoad p page (m.pageTable.frame v) m.workingSet (m.evictedTable p v)).pageTable.frame q =
      if q = p then m.pageTable.frame v else m.pageTable.frame q := by
    intro q
    rw [afterLoad_frame, evictedTable_frame]
  refine ⟨h.pos, by rw [hr]; exact h.le, by rw [hr]; exact h.free, ?_, ?_⟩
  · intro q hq
    rw [hfr, hr]
    split
    · exact h.below v hv
    · rename_i hne; exact h.below q (((hva q).1 hq).resolve_left hne).1
  · intro q q' hq hq' he
    rw [hfr, hfr] at he
    -- no page but `v` owned the frame, and `v` is valid no more
    have hold : ∀ q, q ≠ p → (m.pageTable.Valid q ∧ q ≠ v) → m.pageTable.frame q ≠ m.pageTable.frame v :=
      fun q _ hq he => hq.2 (h.inj q v hq.1 hv he)
    by_cases hqp : q = p <;> by_cases hqp' : q' = p
    · rw [hqp, hqp']
    · rw [if_pos hqp, if_neg hqp'] at he
      exact absurd he.symm (hold q' hqp' (((hva q').1 hq').resolve_left hqp'))
    · rw [if_neg hqp, if_pos hqp'] at he
      exact absurd he (hold q hqp (((hva q).1 hq).resolve_left hqp))
    · rw [if_neg hqp, if_neg hqp'] at he
      exact h.inj q q' (((hva q).1 hq).resolve_left hqp).1 (((hva q').1 hq').resolve_left hqp').1 he

theorem victim_valid {t : PageTable} {p v : PageNumber} (h : (t.accessPage p).victim = some v) : t.Valid v := by
  have := (PageTable.victim_oldest h).1
  rwa [PageTable.accessPage_valid] at this

theorem FrameInv.access {m m' : VirtualMemoryManager} {r : Request} {resp : Response} (h : FrameInv m)
    (ha : Access m r m' resp) : FrameInv m' := by
  have hacc : ∀ p q, (m.pageTable.accessPage p).Valid q ↔ m.pageTable.Valid q := by
    intro p q
    rw [PageTable.accessPage_valid]
  cases ha with
  | tlbHit _ => exact h.congr rfl rfl (hacc _) (PageTable.accessPage_frame _ _)
  | pageHit _ _ => exact h.congr rfl rfl (hacc _) (PageTable.accessPage_frame _ _)
  | failed _ _ _ => exact h.congr rfl rfl (hacc _) (PageTable.accessPage_frame _ _)
  | freeFrame _ hp _ hs => exact h.freeLoad hp hs
  | eviction _ hp _ _ hv => exact h.evictionLoad hp (victim_valid hv)

/-! ## A request has no other outcome -/

/-- Should the request need a victim, the search finds one. -/
def VictimFound (m : VirtualMemoryManager) (r : Request) : Prop :=
  m.tlb.lookup r.page = none → ¬ m.pageTable.Valid r.page → m.workingSet.set = [] →
    ∃ v, (m.pageTable.accessPage r.page).victim = some v

instance (m : VirtualMemoryManager) (r : Request) : Decidable (VictimFound m r) := by
  unfold VictimFound; infer_instance

theorem acquireFrame_free {m : VirtualMemoryManager} {f : FrameNumber} {rest : List Int}
    (hs : m.workingSet.set = (f.val : Int) :: rest) : m.acquireFrame = .ok ({ m with workingSet := ⟨rest⟩ }, f) := by
  simp [acquireFrame, WorkingSet.isFreeFrame, WorkingSet.getFreeFrame, hs]

theorem acquireFrame_eviction {m : VirtualMemoryManager} {v : PageNumber} (hs : m.workingSet.set = [])
    (hv : m.pageTable.victim = some v)
    (hr : m.pageTable.rlookup (m.pageTable.frame v) = some (v, m.pageTable.table v)) :
    m.acquireFrame = .ok (m.evict v (m.pageTable.table v), m.pageTable.frame v) := by
  have hval : (m.pageTable.table v).isValid = true := (PageTable.victim_oldest hv).1
  simp only [acquireFrame, WorkingSet.isFreeFrame, hs, List.isEmpty_nil, Bool.not_true, Bool.false_eq_true, if_false,
    PageTable.findVictim_eq, hv, hr, hval, if_true]

/-- The reverse lookup of a valid page's frame finds the page. -/
theorem FrameInv.rlookup {m : VirtualMemoryManager} (h : FrameInv m) {p v : PageNumber} (hv : m.pageTable.Valid v) :
    (m.pageTable.accessPage p).rlookup ((m.pageTable.accessPage p).frame v) =
      some (v, (m.pageTable.accessPage p).table v) := by
  refine PageTable.rlookup_owner (by rwa [PageTable.accessPage_valid]) fun q hq he => ?_
  rw [PageTable.accessPage_valid] at hq
  rw [PageTable.accessPage_frame, PageTable.accessPage_frame] at he
  exact h.inj q v hq hv he

theorem readByte_tlbHit {m : VirtualMemoryManager} {r : Request} {f : FrameNumber} (hl : m.tlb.lookup r.page = some f) :
    m.readByte r = .ok (m.afterTlbHit r.page, .ofFrame m.physicalMemory.frames f r.address) := by
  unfold readByte translate
  simp only
  rw [show getPageNumberFromLogicalAddress r.address = r.page from rfl, hl]
  simp only [tlbHit, PageTable.lookup_eq, respond_ofFrame]
  rfl

theorem readByte_pageHit {m : VirtualMemoryManager} {r : Request} (hl : m.tlb.lookup r.page = none)
    (hv : m.pageTable.Valid r.page) : m.readByte r =
      .ok (m.afterPageHit r.page, .ofFrame m.physicalMemory.frames (m.pageTable.frame r.page) r.address) := by
  unfold readByte translate
  simp only
  rw [show getPageNumberFromLogicalAddress r.address = r.page from rfl, hl]
  simp only [lookupPage, PageTable.lookup_eq]
  rw [if_pos (show (m.pageTable.table r.page).isValid = true from hv)]
  simp only [respond_ofFrame]
  rfl

/-- A request that misses both tables is decided by the page-fault branch. -/
theorem readByte_fault {m : VirtualMemoryManager} {r : Request} (hl : m.tlb.lookup r.page = none)
    (hv : ¬ m.pageTable.Valid r.page) : m.readByte r =
      match (m.lookedUp r.page).pageFault r.page (m.pageTable.table r.page) r.io with
      | .error e => .error e
      | .ok (m', none) => .ok (m', .failed)
      | .ok (m', some f) =>
        .ok ({ m' with tlb := m'.tlb.addEntry ⟨r.page, f, true⟩ }, .ofFrame m'.physicalMemory.frames f r.address) := by
  unfold readByte translate
  simp only
  rw [show getPageNumberFromLogicalAddress r.address = r.page from rfl, hl]
  simp only [lookupPage, PageTable.lookup_eq]
  rw [if_neg (show ¬ (m.pageTable.table r.page).isValid = true from hv)]
  rw [show ({ m with pagelookups := m.pagelookups + 1, pageTable := m.pageTable.accessPage r.page } :
    VirtualMemoryManager) = m.lookedUp r.page from rfl]
  rcases (m.lookedUp r.page).pageFault r.page (m.pageTable.table r.page) r.io with e | ⟨m', _ | f⟩
  · rfl
  · rfl
  · simp only [respond_ofFrame]

theorem pageFault_failed {m : VirtualMemoryManager} {p : PageNumber} {e : PageEntry} {io : IoOutcome} {err : Errno}
    (hg : m.backingStore.getPage (p.val * pageSize) pageSize io = .error err) :
    m.pageFault p e io = .ok ({ m with pagefaults := m.pagefaults + 1 }, none) := by
  simp only [pageFault, hg]

theorem pageFault_loaded {m m' : VirtualMemoryManager} {p : PageNumber} {e : PageEntry} {io : IoOutcome} {page : Page}
    {f : FrameNumber} (hg : m.backingStore.getPage (p.val * pageSize) pageSize io = .ok page)
    (ha : acquireFrame { m with pagefaults := m.pagefaults + 1 } = .ok (m', f))
    (hf : (f.val : Int) < m'.numberOfFramesInPm) :
    m.pageFault p e io = .ok ({ m' with
      physicalMemory := { m'.physicalMemory with frames := Function.update m'.physicalMemory.frames f page }
      pageTable := m'.pageTable.updatePageEntry { e with frameNumber := f, isModified := false, isValid := true } p },
      some f) := by
  simp only [pageFault, hg, ha, installPage, PhysicalMemory.loadFrame_lt _ hf]

/-- Each way of `Access` is what `readByte` does under the frame invariant. -/
theorem Access.readByte {m m' : VirtualMemoryManager} {r : Request} {resp : Response} (h : FrameInv m)
    (ha : Access m r m' resp) : m.readByte r = .ok (m', resp) := by
  cases ha with
  | tlbHit hl => exact readByte_tlbHit hl
  | pageHit hl hv => exact readByte_pageHit hl hv
  | failed hl hv hg => rw [readByte_fault hl hv, pageFault_failed (m := m.lookedUp r.page) hg]; rfl
  | @freeFrame page f rest hl hv hg hs =>
    obtain ⟨htop, hlt, _⟩ := h.free_cons hs
    have hfn : (f.val : Int) < m.numberOfFramesInPm := by omega
    rw [readByte_fault hl hv, pageFault_loaded (m := m.lookedUp r.page) hg (acquireFrame_free hs) hfn]
    rfl
  | @eviction page v hl hv hg hs hvict =>
    have hvv := victim_valid hvict
    have hacq := acquireFrame_eviction
      (m := { m.lookedUp r.page with pagefaults := m.pagefaults + 1 }) hs hvict (h.rlookup hvv)
    have hfr : (m.lookedUp r.page).pageTable.frame v = m.pageTable.frame v := PageTable.accessPage_frame _ _ _
    simp only [hfr] at hacq
    rw [readByte_fault hl hv, pageFault_loaded (m := m.lookedUp r.page) hg hacq (h.frame_lt hvv)]
    rfl

/-- Under the frame invariant a request finds one of the ways of `Access`, unless it needs a victim
and the search finds none. -/
theorem exists_access {m : VirtualMemoryManager} (h : FrameInv m) (r : Request) (hfound : VictimFound m r) :
    ∃ m' resp, Access m r m' resp := by
  cases hl : m.tlb.lookup r.page with
  | some f => exact ⟨_, _, .tlbHit hl⟩
  | none =>
    by_cases hv : m.pageTable.Valid r.page
    · exact ⟨_, _, .pageHit hl hv⟩
    · cases hg : m.getPage r with
      | error e => exact ⟨_, _, .failed hl hv hg⟩
      | ok page =>
        cases hs : m.workingSet.set with
        | cons top rest =>
          obtain ⟨htop, hlt, _⟩ := h.free_cons hs
          obtain ⟨f, hf⟩ : ∃ f : FrameNumber, (f.val : Int) = top :=
            ⟨⟨residents m.pageTable, residents_lt hv⟩, htop.symm⟩
          exact ⟨_, _, .freeFrame hl hv hg (by rw [hs, hf])⟩
        | nil =>
          obtain ⟨v, hvict⟩ := hfound hl hv hs
          exact ⟨_, _, .eviction hl hv hg hs hvict⟩

theorem readByte_access {m : VirtualMemoryManager} (h : FrameInv m) (r : Request) (hfound : VictimFound m r) :
    ∃ m' resp, m.readByte r = .ok (m', resp) ∧ Access m r m' resp := by
  obtain ⟨m', resp, ha⟩ := exists_access h r hfound
  exact ⟨m', resp, ha.readByte h, ha⟩

/-- The converse: with no victim to be found, the request reads `table[-1]`. -/
theorem readByte_no_victim {m : VirtualMemoryManager} {r : Request} {page : Page} (hl : m.tlb.lookup r.page = none)
    (hv : ¬ m.pageTable.Valid r.page) (hg : m.getPage r = .ok page) (hs : m.workingSet.set = [])
    (hvict : (m.pageTable.accessPage r.page).victim = none) : m.readByte r = .error .tableIndex := by
  have hacq : acquireFrame { m.lookedUp r.page with pagefaults := m.pagefaults + 1 } = .error .tableIndex := by
    simp only [acquireFrame, WorkingSet.isFreeFrame, lookedUp, hs, List.isEmpty_nil, Bool.not_true, Bool.false_eq_true,
      if_false, PageTable.findVictim_eq, hvict]
  have hg' : (m.lookedUp r.page).backingStore.getPage (r.page.val * pageSize) pageSize r.io = .ok page := hg
  rw [readByte_fault hl hv]
  simp only [pageFault, hg', show (m.lookedUp r.page).pagefaults = m.pagefaults from rfl, hacq]

/-- Every request that ends in a state got there in one of the ways of `Access`. -/
theorem access_of_readByte {m m' : VirtualMemoryManager} {r : Request} {resp : Response} (h : FrameInv m)
    (hr : m.readByte r = .ok (m', resp)) : Access m r m' resp := by
  have hex : ∃ m' resp, Access m r m' resp := by
    by_cases hfound : VictimFound m r
    · exact exists_access h r hfound
    · simp only [VictimFound, Classical.not_imp, not_exists] at hfound
      obtain ⟨hl, hv, hs, hnone⟩ := hfound
      cases hg : m.getPage r with
      | error e => exact ⟨_, _, .failed hl hv hg⟩
      | ok page => rw [readByte_no_victim hl hv hg hs (Option.eq_none_iff_forall_ne_some.2 hnone)] at hr; cases hr
  obtain ⟨m₁, resp₁, ha⟩ := hex
  rw [ha.readByte h] at hr
  cases hr
  exact ha

end VirtualMemoryManager

end UnixSysProg.Vmm2
