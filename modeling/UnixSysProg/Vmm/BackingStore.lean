/-
Pages (`pageblock.cpp`) and the backing store (`backingstore.cpp`), the same in both generations.
The kernel answers each `lseek` and `read` with an error or a count (`IoOutcome`); what the calls
then do is fixed by POSIX: an error sets a positive `errno`, a descriptor that was never opened
fails with `EBADF`, and a successful `read` fills at most the bytes the file has from the offset
on, leaving the rest of the buffer as it was.
-/
import UnixSysProg.Vmm.Globals

namespace UnixSysProg.Vmm

/-! ## Pages -/

/-- `class Page`: `pageSize` bytes. -/
abbrev Page := Fin pageSize → Byte

/-- `Page::getByte`; `none` is `status_failure`, with the out-parameter left alone. -/
def Page.getByte (page : Page) (offset : Nat) : Option Byte :=
  if h : offset < pageSize then some (page ⟨offset, h⟩) else none

theorem Page.getByte_lt (page : Page) {offset : Nat} (h : offset < pageSize) :
    Page.getByte page offset = some (page ⟨offset, h⟩) := dif_pos h

/-! ## Kernel calls -/

/-- An `errno` value: positive whenever a call has failed. -/
structure Errno where
  code : Int
  pos : 0 < code
  deriving DecidableEq, Repr

/-- `EBADF`: the descriptor is not open. -/
def ebadf : Errno := ⟨9, by decide⟩

/-- How the kernel answers `lseek`. -/
inductive SeekOutcome
  | error (errno : Errno)
  | ok
  deriving DecidableEq, Repr

/-- How the kernel answers `read`: it fails, or is willing to deliver up to `n` bytes. -/
inductive ReadOutcome
  | error (errno : Errno)
  | count (n : Nat)
  deriving DecidableEq, Repr

/-- The environment of one `getPage` call: the kernel's answers, and what the uninitialised
buffer `tbuf` happens to hold. -/
structure IoOutcome where
  seek : SeekOutcome
  read : ReadOutcome
  tbuf : Page

/-- An open file: its length and its bytes. -/
structure StoreFile where
  size : Nat
  byte : Nat → Byte

/-- `class BackingStore`; `none` is the descriptor `-1` of a failed `open`. -/
structure BackingStore where
  file : Option StoreFile

def BackingStore.lseek (bs : BackingStore) (io : IoOutcome) : Except Errno Unit :=
  match bs.file, io.seek with
  | none, _ => .error ebadf
  | some _, .error e => .error e
  | some _, .ok => .ok ()

/-- The bytes a `read` of `count` bytes at `position` delivers when the kernel is willing to give `n`. -/
def StoreFile.delivered (f : StoreFile) (position count n : Nat) : Nat :=
  min n (min count (f.size - position))

/-- The buffer after a `read` that delivered `k` bytes at `position`. -/
def StoreFile.fill (f : StoreFile) (position k : Nat) (tbuf : Page) : Page :=
  fun i => if i.val < k then f.byte (position + i) else tbuf i

/-- `read` at `position`: the number of bytes read or the error, and the buffer afterwards. -/
def BackingStore.read (bs : BackingStore) (position count : Nat) (io : IoOutcome) : Except Errno Nat × Page :=
  match bs.file, io.read with
  | none, _ => (.error ebadf, io.tbuf)
  | some _, .error e => (.error e, io.tbuf)
  | some f, .count n => (.ok (f.delivered position count n), f.fill position (f.delivered position count n) io.tbuf)

/-- `BackingStore::getPage`: the status is `rval`, with `.ok` for `status_success`. A failed
`lseek` returns its `errno`; a failed `read` assigns `errno = rval`, so `rval` is still
`status_success`, and the buffer is copied to the page whatever `read` returned. -/
def BackingStore.getPage (bs : BackingStore) (position pagesize : Nat) (io : IoOutcome) : Except Errno Page :=
  match bs.lseek io with
  | .error e => .error e
  | .ok () => .ok (bs.read position pagesize io).2

/-! ## Full reads -/

/-- The page of the file at `position`. -/
def StoreFile.page (f : StoreFile) (position : Nat) : Page := fun i => f.byte (position + i)

/-- The call seeks and reads all `pageSize` bytes at `position`. -/
def IoOutcome.ReadsAll (io : IoOutcome) (bs : BackingStore) (position : Nat) : Prop :=
  bs.lseek io = .ok () ∧ (bs.read position pageSize io).1 = .ok pageSize

instance (io : IoOutcome) (bs : BackingStore) (position : Nat) : Decidable (io.ReadsAll bs position) := by
  unfold IoOutcome.ReadsAll; infer_instance

/-- A call on an open file that seeks and reads in full delivers the file's page. -/
theorem getPage_readsAll {bs : BackingStore} {position : Nat} {io : IoOutcome} (h : io.ReadsAll bs position) :
    ∃ f, bs.file = some f ∧ position + pageSize ≤ f.size ∧
      bs.getPage position pageSize io = .ok (f.page position) := by
  obtain ⟨hs, hr⟩ := h
  unfold BackingStore.read at hr
  split at hr
  · cases hr
  · cases hr
  · rename_i f n hf hn
    have hd : f.delivered position pageSize n = 256 := Except.ok.inj hr
    have hle : position + 256 ≤ f.size := by unfold StoreFile.delivered at hd; omega
    refine ⟨f, hf, hle, ?_⟩
    simp only [BackingStore.getPage, hs, BackingStore.read, hf, hn, hd]
    congr 1; funext i
    exact if_pos i.isLt

/-- `lseek` and `read` succeed and deliver what was asked for. -/
def IoOutcome.Succeeds (io : IoOutcome) : Prop :=
  io.seek = .ok ∧ ∃ n, io.read = .count n ∧ pageSize ≤ n

/-- On a file that holds the whole page, calls that succeed read it in full. -/
theorem IoOutcome.Succeeds.readsAll {io : IoOutcome} (h : io.Succeeds) {f : StoreFile} {position : Nat}
    (hp : position + pageSize ≤ f.size) : io.ReadsAll ⟨some f⟩ position := by
  obtain ⟨hs, n, hn, hle⟩ := h
  refine ⟨by simp only [BackingStore.lseek, hs], ?_⟩
  simp only [BackingStore.read, hn, StoreFile.delivered]
  congr 1; omega

/-- The converse needs no file: a full read is a call that succeeds. -/
theorem IoOutcome.ReadsAll.succeeds {io : IoOutcome} {bs : BackingStore} {position : Nat} (h : io.ReadsAll bs position) :
    io.Succeeds := by
  obtain ⟨hs, hr⟩ := h
  unfold BackingStore.read at hr
  split at hr
  · cases hr
  · cases hr
  · rename_i f n hf hn
    have hd : f.delivered position pageSize n = 256 := Except.ok.inj hr
    refine ⟨?_, n, hn, by unfold StoreFile.delivered at hd; show 256 ≤ n; omega⟩
    simp only [BackingStore.lseek, hf] at hs
    split at hs
    · rename_i h1; cases h1
    · cases hs
    · assumption

end UnixSysProg.Vmm
