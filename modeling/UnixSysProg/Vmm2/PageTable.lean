/-
The page table of `pa3_3/VMM2` (`pagetable.cpp`): one entry per virtual page, each with the two
`int` stamps that LRU and Fifo replacement compare. The two victim searches are one loop over a
different stamp, and what the rest of the development uses of them is stated for the stamp and the
clock of the table's own strategy.
-/
import UnixSysProg.Vmm.Globals
import UnixSysProg.Lib.Scan
import UnixSysProg.Lib.Recency

namespace UnixSysProg.Vmm2

open UnixSysProg.Lib UnixSysProg.Vmm

/-- What the code may do that C++ leaves undefined: reading `table[pageno]` with `pageno = -1`, or
reading `victimEntry` before anything was assigned to it. -/
inductive Undefined
  | tableIndex
  | victimEntry
  deriving DecidableEq, Repr

/-- `struct PageEntry`. -/
structure PageEntry where
  isValid : Bool
  isModified : Bool
  accessno : Int32
  fifono : Int32
  frameNumber : FrameNumber
  deriving DecidableEq

/-- `PageEntry::operator=`: the flags and the frame are copied, the stamps are not. -/
def PageEntry.assign (this pe : PageEntry) : PageEntry :=
  { this with isModified := pe.isModified, isValid := pe.isValid, frameNumber := pe.frameNumber }

/-- `class PageTable`. -/
structure PageTable where
  table : PageNumber → PageEntry
  accessno : Int32
  fifono : Int32
  strategy : ReplacementStrategy

namespace PageTable

/-- The table after `initialize` and `setStrategy`: no page valid, page `i` naming frame `i`. -/
def initial (strategy : ReplacementStrategy) : PageTable where
  table i := ⟨false, false, 0, 0, i⟩
  accessno := 0
  fifono := 0
  strategy := strategy

def accessPageFifo (t : PageTable) (_pageNumber : PageNumber) : PageTable := t

def accessPageLRU (t : PageTable) (pageNumber : PageNumber) : PageTable :=
  { t with
    table := Function.update t.table pageNumber { t.table pageNumber with accessno := t.accessno }
    accessno := t.accessno + 1 }

def accessPage (t : PageTable) (pageNumber : PageNumber) : PageTable :=
  match t.strategy with
  | .fifo => t.accessPageFifo pageNumber
  | .lru => t.accessPageLRU pageNumber

/-- `PageTable::lookup`: the entry as it was before the access was recorded; `none` is
`status_failure`. -/
def lookup (t : PageTable) (pageNumber : PageNumber) : PageTable × Option PageEntry :=
  if pageNumber.val < numberOfPageInVm then (t.accessPage pageNumber, some (t.table pageNumber)) else (t, none)

/-- `PageTable::rlookup`: the last page that is valid in the frame; `none` is `status_failure`. -/
def rlookup (t : PageTable) (frameNumber : FrameNumber) : Option (PageNumber × PageEntry) :=
  ((List.finRange numberOfPageInVm).foldl
    (scanLast fun i => (t.table i).frameNumber == frameNumber && (t.table i).isValid) none).map
      fun i => (i, t.table i)

def updatePageEntry (t : PageTable) (pageEntry : PageEntry) (pageno : PageNumber) : PageTable :=
  { t with
    table := Function.update t.table pageno
      { (t.table pageno).assign pageEntry with accessno := t.accessno, fifono := t.fifono }
    accessno := t.accessno + 1
    fifono := t.fifono + 1 }

/-- The loop of both victim searches: `pageno` after it, from `min = counter + 1`. -/
def scanVictim (t : PageTable) (counter : Int32) (no : PageEntry → Int32) : Option PageNumber :=
  ((List.finRange numberOfPageInVm).foldl
    (scanMin (fun i => (t.table i).isValid) fun i => (no (t.table i)).toInt) ((counter + 1).toInt, none)).2

/-- A victim search: `frameno` is set together with `pageno`, and the closing log call reads
`table[pageno]`. -/
def findVictimBy (t : PageTable) (counter : Int32) (no : PageEntry → Int32) : Except Undefined FrameNumber :=
  match t.scanVictim counter no with
  | none => .error .tableIndex
  | some pageno => .ok (t.table pageno).frameNumber

def findVictimByLRU (t : PageTable) : Except Undefined FrameNumber := t.findVictimBy t.accessno (·.accessno)

def findVictimByFifo (t : PageTable) : Except Undefined FrameNumber := t.findVictimBy t.fifono (·.fifono)

def findVictim (t : PageTable) : Except Undefined FrameNumber :=
  match t.strategy with
  | .fifo => t.findVictimByFifo
  | .lru => t.findVictimByLRU

/-! ## The stamps of the strategy in force -/

/-- Page `p` is valid. -/
def Valid (t : PageTable) (p : PageNumber) : Prop := (t.table p).isValid = true

instance (t : PageTable) : DecidablePred t.Valid := fun p => inferInstanceAs (Decidable ((t.table p).isValid = true))

/-- The frame the entry of page `p` names. -/
def frame (t : PageTable) (p : PageNumber) : FrameNumber := (t.table p).frameNumber

/-- The counter the strategy compares. -/
def clock (t : PageTable) : Int32 :=
  match t.strategy with
  | .fifo => t.fifono
  | .lru => t.accessno

/-- The stamp the strategy compares. -/
def stamp (t : PageTable) (p : PageNumber) : Int :=
  match t.strategy with
  | .fifo => (t.table p).fifono.toInt
  | .lru => (t.table p).accessno.toInt

/-- The page the search of the strategy settles on. -/
def victim (t : PageTable) : Option PageNumber :=
  match t.strategy with
  | .fifo => t.scanVictim t.fifono (·.fifono)
  | .lru => t.scanVictim t.accessno (·.accessno)

theorem findVictim_eq (t : PageTable) : t.findVictim =
    match t.victim with
    | none => .error .tableIndex
    | some p => .ok (t.frame p) := by
  unfold findVictim victim
  cases t.strategy <;> rfl

theorem victim_eq (t : PageTable) : t.victim = ((List.finRange numberOfPageInVm).foldl
    (scanMin (fun i => (t.table i).isValid) t.stamp) ((t.clock + 1).toInt, none)).2 := by
  unfold victim stamp clock
  cases t.strategy <;> rfl

/-- The search finds the oldest valid page. -/
theorem victim_oldest {t : PageTable} {p : PageNumber} (h : t.victim = some p) : Oldest t.Valid t.stamp p := by
  rw [victim_eq] at h
  obtain ⟨h1, _, h3⟩ := foldl_scanMin_some h
  exact ⟨h1, fun q hq => h3 q (List.mem_finRange q) hq⟩

/-- It finds one exactly when some valid page is stamped below the next value of the clock. -/
theorem victim_isSome {t : PageTable} :
    (∃ p, t.victim = some p) ↔ ∃ p, t.Valid p ∧ t.stamp p < (t.clock + 1).toInt := by
  rw [victim_eq, foldl_scanMin_isSome]
  simp [Valid]

/-- The reverse lookup of a frame that one valid page owns finds that page. -/
theorem rlookup_owner {t : PageTable} {p : PageNumber} (hv : t.Valid p)
    (hu : ∀ q, t.Valid q → t.frame q = t.frame p → q = p) : t.rlookup (t.frame p) = some (p, t.table p) := by
  unfold rlookup
  rw [foldl_scanLast_unique (List.mem_finRange p)]
  · rfl
  · simp only [frame, beq_self_eq_true, Bool.true_and]; exact hv
  · intro q _ hq
    simp only [Bool.and_eq_true, beq_iff_eq] at hq
    exact hu q hq.2 hq.1

/-! ## Lookups and accesses -/

theorem lookup_eq (t : PageTable) (p : PageNumber) : t.lookup p = (t.accessPage p, some (t.table p)) :=
  if_pos p.isLt

@[simp] theorem accessPage_strategy (t : PageTable) (p : PageNumber) : (t.accessPage p).strategy = t.strategy := by
  unfold accessPage; split <;> rfl

@[simp] theorem accessPage_isValid (t : PageTable) (p q : PageNumber) :
    ((t.accessPage p).table q).isValid = (t.table q).isValid := by
  unfold accessPage
  split
  · rfl
  · simp only [accessPageLRU, Function.update_apply]; split <;> simp_all

@[simp] theorem accessPage_frame (t : PageTable) (p q : PageNumber) : (t.accessPage p).frame q = t.frame q := by
  unfold accessPage frame
  split
  · rfl
  · simp only [accessPageLRU, Function.update_apply]; split <;> simp_all

@[simp] theorem accessPage_valid (t : PageTable) (p : PageNumber) : (t.accessPage p).Valid = t.Valid := by
  funext q; simp [Valid]

/-- An access stamps the page under LRU and does nothing under Fifo. -/
theorem accessPage_stamp (t : PageTable) (p : PageNumber) :
    (t.accessPage p).stamp = (if t.strategy = .lru then Function.update t.stamp p t.clock.toInt else t.stamp) ∧
    (t.accessPage p).clock = (if t.strategy = .lru then t.clock + 1 else t.clock) := by
  unfold accessPage
  cases hs : t.strategy with
  | fifo => exact ⟨rfl, rfl⟩
  | lru =>
    refine ⟨?_, by simp [clock, accessPageLRU, hs]⟩
    funext q
    simp only [stamp, clock, accessPageLRU, hs, Function.update_apply, if_true]
    split <;> rfl

/-! ## Updates -/

@[simp] theorem updatePageEntry_isValid (t : PageTable) (e : PageEntry) (p q : PageNumber) :
    ((t.updatePageEntry e p).table q).isValid = if q = p then e.isValid else (t.table q).isValid := by
  simp only [updatePageEntry, Function.update_apply]; split <;> rfl

@[simp] theorem updatePageEntry_frame (t : PageTable) (e : PageEntry) (p q : PageNumber) :
    (t.updatePageEntry e p).frame q = if q = p then e.frameNumber else t.frame q := by
  simp only [frame, updatePageEntry, Function.update_apply]; split <;> rfl

theorem updatePageEntry_valid (t : PageTable) (e : PageEntry) (p q : PageNumber) :
    (t.updatePageEntry e p).Valid q ↔ if q = p then e.isValid = true else t.Valid q := by
  simp only [Valid, updatePageEntry_isValid]; split <;> rfl

/-- An update stamps the page under both strategies. -/
theorem updatePageEntry_stamp (t : PageTable) (e : PageEntry) (p : PageNumber) :
    (t.updatePageEntry e p).stamp = Function.update t.stamp p t.clock.toInt ∧
    (t.updatePageEntry e p).clock = t.clock + 1 := by
  cases hs : t.strategy <;> refine ⟨?_, by simp [clock, updatePageEntry, hs]⟩ <;> funext q <;>
    simp only [stamp, clock, updatePageEntry, hs, Function.update_apply] <;> split <;> rfl

end PageTable

end UnixSysProg.Vmm2
