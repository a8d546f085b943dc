/-
The manager of `pa3_2`: no replacement, no free-frame stack and no recency stamps. A faulting page
goes into the next frame of an eight-bit round-robin counter, and a TLB hit does not look at the page
table. Nothing in it is left undefined, so a request always ends in a state.
-/
import UnixSysProg.Vmm.Tlb
import UnixSysProg.Vmm.Request

namespace UnixSysProg.Vmm1

open UnixSysProg.Vmm

/-- `NumberOfFramesInPm`, here a constant. -/
def numberOfFramesInPm : Int := 256

/-- `struct PageEntry`. -/
structure PageEntry where
  isValid : Bool
  isModified : Bool
  frameNumber : FrameNumber
  deriving DecidableEq

/-- `class PageTable`. -/
structure PageTable where
  table : PageNumber → PageEntry

namespace PageTable

/-- The table after `initialize`: value-initialised entries, none valid. -/
def initial : PageTable := ⟨fun _ => ⟨false, false, toFrameNumber 0⟩⟩

/-- `PageTable::lookup`; `none` is `status_failure`. -/
def lookup (t : PageTable) (pageNumber : PageNumber) : Option PageEntry :=
  if pageNumber.val < numberOfPageInVm then some (t.table pageNumber) else none

def updatePageEntry (t : PageTable) (pageEntry : PageEntry) (pageno : PageNumber) : PageTable :=
  ⟨Function.update t.table pageno pageEntry⟩

/-- Page `p` is valid. -/
def Valid (t : PageTable) (p : PageNumber) : Prop := (t.table p).isValid = true

instance (t : PageTable) : DecidablePred t.Valid := fun p => inferInstanceAs (Decidable ((t.table p).isValid = true))

/-- The frame the entry of page `p` names. -/
def frame (t : PageTable) (p : PageNumber) : FrameNumber := (t.table p).frameNumber

theorem lookup_eq (t : PageTable) (p : PageNumber) : t.lookup p = some (t.table p) := if_pos p.isLt

theorem updatePageEntry_valid (t : PageTable) (e : PageEntry) (p q : PageNumber) :
    (t.updatePageEntry e p).Valid q ↔ if q = p then e.isValid = true else t.Valid q := by
  simp only [Valid, updatePageEntry, Function.update_apply]; split <;> rfl

theorem updatePageEntry_frame (t : PageTable) (e : PageEntry) (p q : PageNumber) :
    (t.updatePageEntry e p).frame q = if q = p then e.frameNumber else t.frame q := by
  simp only [frame, updatePageEntry, Function.update_apply]; split <;> rfl

end PageTable

/-- `PhysicalMemory::addPage`: the page goes into the victim frame; `none` is `status_failure`. -/
def addPage (pm : PhysicalMemory) (page : Page) : PhysicalMemory × Option FrameNumber :=
  let (pm, victim) := pm.findVictim numberOfFramesInPm
  match pm.loadFrame numberOfFramesInPm victim page with
  | none => (pm, none)
  | some pm => (pm, some victim)

/-- `class VirtualMemoryManager`. -/
structure VirtualMemoryManager where
  physicalMemory : PhysicalMemory
  backingStore : BackingStore
  pageTable : PageTable
  tlb : Tlb
  pagehits : Int32
  pagefaults : Int32
  tlbhits : Int32
  pagelookups : Int32

namespace VirtualMemoryManager

/-- A freshly built manager. -/
def initial (backingStore : BackingStore) : VirtualMemoryManager where
  physicalMemory := .initial
  backingStore := backingStore
  pageTable := .initial
  tlb := .initial
  pagehits := 0
  pagefaults := 0
  tlbhits := 0
  pagelookups := 0

/-- The page-fault branch of `translate`; `none` is `status_failure`. -/
def pageFault (m : VirtualMemoryManager) (pageno : PageNumber) (pageEntry : PageEntry) (io : IoOutcome) :
    VirtualMemoryManager × Option FrameNumber :=
  let m := { m with pagefaults := m.pagefaults + 1 }
  match m.backingStore.getPage (pageno.val * pageSize) pageSize io with
  | .error _ => (m, none)
  | .ok page =>
    match addPage m.physicalMemory page with
    | (physicalMemory, none) => ({ m with physicalMemory := physicalMemory }, none)
    | (physicalMemory, some frameno) =>
      let pageEntry := { pageEntry with frameNumber := frameno, isModified := false, isValid := true }
      ({ m with physicalMemory := physicalMemory, pageTable := m.pageTable.updatePageEntry pageEntry pageno },
        some pageEntry.frameNumber)

/-- The page-table branch of `translate`; `none` is `status_failure`. -/
def lookupPage (m : VirtualMemoryManager) (pageno : PageNumber) (io : IoOutcome) :
    VirtualMemoryManager × Option FrameNumber :=
  match m.pageTable.lookup pageno with
  | none => (m, none)
  | some pageEntry =>
    if pageEntry.isValid then ({ m with pagehits := m.pagehits + 1 }, some pageEntry.frameNumber)
    else m.pageFault pageno pageEntry io

/-- `VirtualMemoryManager::translate`: the physical address, or `none` for `status_failure`. -/
def translate (m : VirtualMemoryManager) (address : VirtualAddress) (io : IoOutcome) :
    VirtualMemoryManager × Option PhysicalAddress :=
  let pageno := getPageNumberFromLogicalAddress address
  let offset := getOffsetFromLogicalAddress address
  match m.tlb.lookup pageno with
  | some frameno => ({ m with tlbhits := m.tlbhits + 1 }, some (physicalAddressOf frameno offset))
  | none =>
    match m.lookupPage pageno io with
    | (m, none) => (m, none)
    | (m, some frameno) =>
      ({ m with tlb := m.tlb.addEntry ⟨pageno, frameno, true⟩ }, some (physicalAddressOf frameno offset))

/-- `VirtualMemoryManager::readByte`. -/
def readByte (m : VirtualMemoryManager) (r : Request) : VirtualMemoryManager × Response :=
  let (m, physicalAddress) := translate { m with pagelookups := m.pagelookups + 1 } r.address r.io
  (m, respond m.physicalMemory physicalAddress)

/-- `readByte` as a step of a run. -/
def step (m : VirtualMemoryManager) (r : Request) : Except Empty (VirtualMemoryManager × Response) :=
  .ok (m.readByte r)

/-! ## The four ways of a request -/

/-- The request counted. -/
def counted (m : VirtualMemoryManager) : VirtualMemoryManager := { m with pagelookups := m.pagelookups + 1 }

def afterTlbHit (m : VirtualMemoryManager) : VirtualMemoryManager := { m.counted with tlbhits := m.tlbhits + 1 }

def afterPageHit (m : VirtualMemoryManager) (p : PageNumber) : VirtualMemoryManager :=
  { m.counted with pagehits := m.pagehits + 1, tlb := m.tlb.addEntry ⟨p, m.pageTable.frame p, true⟩ }

def afterFailure (m : VirtualMemoryManager) : VirtualMemoryManager := { m.counted with pagefaults := m.pagefaults + 1 }

/-- The frame after the one loaded last. -/
def nextFrame (m : VirtualMemoryManager) : FrameNumber := (m.physicalMemory.findVictim numberOfFramesInPm).2

/-- The page-table entry of page `p` loaded into `frameno`. -/
def loadedEntry (m : VirtualMemoryManager) (p : PageNumber) (frameno : FrameNumber) : PageEntry :=
  { m.pageTable.table p with frameNumber := frameno, isModified := false, isValid := true }

/-- Page `p` loaded into the next frame. -/
def afterLoad (m : VirtualMemoryManager) (p : PageNumber) (page : Page) : VirtualMemoryManager :=
  { m.counted with
    pagefaults := m.pagefaults + 1
    physicalMemory := ⟨Function.update m.physicalMemory.frames m.nextFrame page, m.nextFrame⟩
    pageTable := m.pageTable.updatePageEntry (m.loadedEntry p m.nextFrame) p
    tlb := m.tlb.addEntry ⟨p, m.nextFrame, true⟩ }

/-- The backing store's answer to a request. -/
def getPage (m : VirtualMemoryManager) (r : Request) : Except Errno Page :=
  m.backingStore.getPage (r.page.val * pageSize) pageSize r.io

/-- The next frame is always one that `loadFrame` accepts. -/
theorem addPage_eq (pm : PhysicalMemory) (page : Page) :
    addPage pm page = (⟨Function.update pm.frames (pm.findVictim numberOfFramesInPm).2 page,
      (pm.findVictim numberOfFramesInPm).2⟩, some (pm.findVictim numberOfFramesInPm).2) := by
  have hlt : (((pm.findVictim numberOfFramesInPm).2.val : Nat) : Int) < numberOfFramesInPm := by
    have := (pm.findVictim numberOfFramesInPm).2.isLt
    show (_ : Int) < 256
    omega
  simp only [addPage, PhysicalMemory.loadFrame_lt _ hlt]
  rfl

theorem readByte_tlbHit {m : VirtualMemoryManager} {r : Request} {f : FrameNumber} (hl : m.tlb.lookup r.page = some f) :
    m.readByte r = (m.afterTlbHit, .ofFrame m.physicalMemory.frames f r.address) := by
  unfold readByte translate
  simp only
  rw [show getPageNumberFromLogicalAddress r.address = r.page from rfl, hl]
  simp only [respond_ofFrame]
  rfl

theorem readByte_pageHit {m : VirtualMemoryManager} {r : Request} (hl : m.tlb.lookup r.page = none)
    (hv : m.pageTable.Valid r.page) :
    m.readByte r = (m.afterPageHit r.page, .ofFrame m.physicalMemory.frames (m.pageTable.frame r.page) r.address) := by
  unfold readByte translate
  simp only
  rw [show getPageNumberFromLogicalAddress r.address = r.page from rfl, hl]
  simp only [lookupPage, PageTable.lookup_eq]
  rw [if_pos (show (m.pageTable.table r.page).isValid = true from hv)]
  simp only [respond_ofFrame]
  rfl

/-- A request that misses both tables is decided by the page-fault branch. -/
theorem readByte_fault {m : VirtualMemoryManager} {r : Request} (hl : m.tlb.lookup r.page = none)
    (hv : ¬ m.pageTable.Valid r.page) : m.readByte r =
      match m.counted.pageFault r.page (m.pageTable.table r.page) r.io with
      | (m', none) => (m', .failed)
      | (m', some f) =>
        ({ m' with tlb := m'.tlb.addEntry ⟨r.page, f, true⟩ }, .ofFrame m'.physicalMemory.frames f r.address) := by
  unfold readByte translate
  simp only
  rw [show getPageNumberFromLogicalAddress r.address = r.page from rfl, hl]
  simp only [lookupPage, PageTable.lookup_eq]
  rw [if_neg (show ¬ (m.pageTable.table r.page).isValid = true from hv)]
  rw [show ({ m with pagelookups := m.pagelookups + 1 } : VirtualMemoryManager) = m.counted from rfl]
  rcases m.counted.pageFault r.page (m.pageTable.table r.page) r.io with ⟨m', _ | f⟩
  · rfl
  · simp only [respond_ofFrame]

theorem readByte_failed {m : VirtualMemoryManager} {r : Request} {e : Errno} (hl : m.tlb.lookup r.page = none)
    (hv : ¬ m.pageTable.Valid r.page) (hg : m.getPage r = .error e) : m.readByte r = (m.afterFailure, .failed) := by
  have hg : m.counted.backingStore.getPage (r.page.val * pageSize) pageSize r.io = .error e := hg
  rw [readByte_fault hl hv]
  simp only [pageFault, hg]
  rfl

theorem readByte_loaded {m : VirtualMemoryManager} {r : Request} {page : Page} (hl : m.tlb.lookup r.page = none)
    (hv : ¬ m.pageTable.Valid r.page) (hg : m.getPage r = .ok page) : m.readByte r =
      (m.afterLoad r.page page,
        .ofFrame (Function.update m.physicalMemory.frames m.nextFrame page) m.nextFrame r.address) := by
  have hg : m.counted.backingStore.getPage (r.page.val * pageSize) pageSize r.io = .ok page := hg
  rw [readByte_fault hl hv]
  simp only [pageFault, hg, addPage_eq]
  rfl

theorem afterLoad_valid (m : VirtualMemoryManager) (p : PageNumber) (page : Page) (q : PageNumber) :
    (m.afterLoad p page).pageTable.Valid q ↔ q = p ∨ m.pageTable.Valid q := by
  rw [afterLoad, PageTable.updatePageEntry_valid]
  split
  · rename_i h; simp [h, loadedEntry]
  · rename_i h; simp [h]

theorem afterLoad_frame (m : VirtualMemoryManager) (p : PageNumber) (page : Page) (q : PageNumber) :
    (m.afterLoad p page).pageTable.frame q = if q = p then m.nextFrame else m.pageTable.frame q :=
  PageTable.updatePageEntry_frame ..

theorem nextFrame_val (m : VirtualMemoryManager) : m.nextFrame.val = (m.physicalMemory.frameno.val + 1) % 256 := by
  have := m.physicalMemory.frameno.isLt
  have hmod : ((m.physicalMemory.frameno.val : Int) + 1).tmod numberOfFramesInPm =
      ((m.physicalMemory.frameno.val : Int) + 1) % 256 := Int.tmod_eq_emod_of_nonneg (by omega)
  show (toFrameNumber (((m.physicalMemory.frameno.val : Int) + 1).tmod numberOfFramesInPm)).val = _
  rw [hmod]
  simp only [toFrameNumber]
  omega

end VirtualMemoryManager

end UnixSysProg.Vmm1
