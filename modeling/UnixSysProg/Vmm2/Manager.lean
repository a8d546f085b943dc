/-
The manager of `pa3_3/VMM2` (`vmm.cpp`, with `WorkingSet` of `physicalmemory.cpp`): `translate`
with its TLB, page-table and page-fault branches, and `readByte`. A step that would read
`table[-1]` or the unassigned `victimEntry` ends in `Undefined`; everything else is a state and a
status. The parts `translate` is cut into get one equation for each branch, and those are what the
rest of the development uses.
-/
import UnixSysProg.Vmm.Tlb
import UnixSysProg.Vmm.Request
import UnixSysProg.Vmm2.PageTable
import UnixSysProg.Lib.Run

namespace UnixSysProg.Vmm2

open UnixSysProg.Lib UnixSysProg.Vmm

/-! ## The free-frame stack -/

/-- `class WorkingSet`: the stack of free frames, top first. -/
structure WorkingSet where
  set : List Int
  deriving DecidableEq

namespace WorkingSet

/-- `WorkingSet::initialize`: `NumberOfFramesInPm - 1` down to `0` are pushed. -/
def initial (numberOfFramesInPm : Int) : WorkingSet :=
  ⟨(List.range numberOfFramesInPm.toNat).reverse.foldl (fun (set : List Int) (j : Nat) => (j : Int) :: set) []⟩

def isFreeFrame (w : WorkingSet) : Bool := !w.set.isEmpty

/-- `WorkingSet::getFreeFrame`; `-1` when the stack is empty. -/
def getFreeFrame (w : WorkingSet) : WorkingSet × Int :=
  match w.set with
  | [] => (w, -1)
  | top :: rest => (⟨rest⟩, top)

theorem initial_set (n : Int) : (initial n).set = (List.range n.toNat).map (fun j : Nat => (j : Int)) := by
  have h : ∀ (l : List Nat) (acc : List Int),
      l.foldl (fun (set : List Int) (j : Nat) => (j : Int) :: set) acc =
        l.reverse.map (fun j : Nat => (j : Int)) ++ acc := by
    intro l
    induction l with
    | nil => intro acc; rfl
    | cons a l ih => intro acc; simp [ih]
  simp [initial, h]

end WorkingSet

/-! ## The manager -/

/-- `class VirtualMemoryManager`, with the global `NumberOfFramesInPm`. -/
structure VirtualMemoryManager where
  numberOfFramesInPm : Int
  physicalMemory : PhysicalMemory
  backingStore : BackingStore
  pageTable : PageTable
  workingSet : WorkingSet
  tlb : Tlb
  pagehits : Int32
  pagefaults : Int32
  tlbhits : Int32
  pagelookups : Int32

namespace VirtualMemoryManager

/-- A freshly built manager. -/
def initial (numberOfFramesInPm : Int) (strategy : ReplacementStrategy) (backingStore : BackingStore) :
    VirtualMemoryManager where
  numberOfFramesInPm := numberOfFramesInPm
  physicalMemory := .initial
  backingStore := backingStore
  pageTable := .initial strategy
  workingSet := .initial numberOfFramesInPm
  tlb := .initial
  pagehits := 0
  pagefaults := 0
  tlbhits := 0
  pagelookups := 0

/-- Make the chosen victim's page invalid: the page-table entry and, in the source, the TLB's. -/
def evict (m : VirtualMemoryManager) (pageVictim : PageNumber) (victimEntry : PageEntry) : VirtualMemoryManager :=
  { m with
    pageTable := m.pageTable.updatePageEntry { victimEntry with isValid := false } pageVictim
    tlb := m.tlb.invalidate victimEntry.frameNumber }

/-- The frame for a faulting page: a free one, or the victim's, whose page is evicted. -/
def acquireFrame (m : VirtualMemoryManager) : Except Undefined (VirtualMemoryManager × FrameNumber) :=
  if m.workingSet.isFreeFrame then
    .ok ({ m with workingSet := m.workingSet.getFreeFrame.1 }, toFrameNumber m.workingSet.getFreeFrame.2)
  else
    match m.pageTable.findVictim with
    | .error e => .error e
    | .ok frameVictim =>
      match m.pageTable.rlookup frameVictim with
      | none => .error .victimEntry
      | some (pageVictim, victimEntry) =>
        if victimEntry.isValid then .ok (m.evict pageVictim victimEntry, frameVictim) else .ok (m, frameVictim)

/-- Put the page in the frame and enter it in the page table; `none` is `status_failure`. -/
def installPage (m : VirtualMemoryManager) (pageno : PageNumber) (pageEntry : PageEntry) (page : Page)
    (frameno : FrameNumber) : VirtualMemoryManager × Option FrameNumber :=
  match m.physicalMemory.loadFrame m.numberOfFramesInPm frameno page with
  | none => (m, none)
  | some physicalMemory =>
    let pageEntry := { pageEntry with frameNumber := frameno, isModified := false, isValid := true }
    ({ m with physicalMemory := physicalMemory, pageTable := m.pageTable.updatePageEntry pageEntry pageno },
      some pageEntry.frameNumber)

/-- The page-fault branch of `translate`. -/
def pageFault (m : VirtualMemoryManager) (pageno : PageNumber) (pageEntry : PageEntry) (io : IoOutcome) :
    Except Undefined (VirtualMemoryManager × Option FrameNumber) :=
  let m := { m with pagefaults := m.pagefaults + 1 }
  match m.backingStore.getPage (pageno.val * pageSize) pageSize io with
  | .error _ => .ok (m, none)
  | .ok page =>
    match m.acquireFrame with
    | .error e => .error e
    | .ok (m, frameno) => .ok (m.installPage pageno pageEntry page frameno)

/-- The page-table branch of `translate`: `none` is `status_failure`. -/
def lookupPage (m : VirtualMemoryManager) (pageno : PageNumber) (io : IoOutcome) :
    Except Undefined (VirtualMemoryManager × Option FrameNumber) :=
  match m.pageTable.lookup pageno with
  | (_, none) => .ok (m, none)
  | (pageTable, some pageEntry) =>
    let m := { m with pageTable := pageTable }
    if pageEntry.isValid then
      .ok ({ m with pagehits := m.pagehits + 1 }, some pageEntry.frameNumber)
    else m.pageFault pageno pageEntry io

/-- The TLB-hit branch of `translate`. -/
def tlbHit (m : VirtualMemoryManager) (pageno : PageNumber) : VirtualMemoryManager :=
  { m with pageTable := (m.pageTable.lookup pageno).1, tlbhits := m.tlbhits + 1 }

/-- `VirtualMemoryManager::translate`: the physical address, or `none` for `status_failure`, which
leaves the out-parameter unwritten. -/
def translate (m : VirtualMemoryManager) (address : VirtualAddress) (io : IoOutcome) :
    Except Undefined (VirtualMemoryManager × Option PhysicalAddress) :=
  let pageno := getPageNumberFromLogicalAddress address
  let offset := getOffsetFromLogicalAddress address
  match m.tlb.lookup pageno with
  | some frameno => .ok (m.tlbHit pageno, some (physicalAddressOf frameno offset))
  | none =>
    match m.lookupPage pageno io with
    | .error e => .error e
    | .ok (m, none) => .ok (m, none)
    | .ok (m, some frameno) =>
      .ok ({ m with tlb := m.tlb.addEntry ⟨pageno, frameno, true⟩ }, some (physicalAddressOf frameno offset))

/-- `VirtualMemoryManager::readByte`. -/
def readByte (m : VirtualMemoryManager) (r : Request) : Except Undefined (VirtualMemoryManager × Response) :=
  match translate { m with pagelookups := m.pagelookups + 1 } r.address r.io with
  | .error e => .error e
  | .ok (m, physicalAddress) => .ok (m, respond m.physicalMemory physicalAddress)

end VirtualMemoryManager

end UnixSysProg.Vmm2
