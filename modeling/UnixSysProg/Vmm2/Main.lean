/-
The input loop of `run` (`pa3_3/VMM2/main.cpp`): each line of the input file is translated and
printed. The loop does not look at the status of `readByte`, `getPage` reports success after a
failed or short `read`, and the out-parameters live across iterations; so the lines are honest just
as long as every page that has to be read is read in full and finds a frame, and no TLB entry
outlives its page.
-/
import UnixSysProg.Vmm2.Paging

namespace UnixSysProg.Vmm2

open UnixSysProg.Lib UnixSysProg.Vmm

namespace VirtualMemoryManager

/-- What `run` keeps from one input line to the next; a variable nothing was assigned to yet is `none`. -/
structure RunState where
  vmm : VirtualMemoryManager
  physicalAddress : Option PhysicalAddress
  byte : Option Byte

/-- An input line, as `atoi` reads it, and how the kernel answers should its page have to be read. -/
structure InputLine where
  address : Int32
  io : IoOutcome

/-- The arguments of `"Virtual address: %d Physical address: %d Value: %d\n"`. -/
structure OutputLine where
  virtualAddress : VirtualAddress
  physicalAddress : Option PhysicalAddress
  value : Option Int

/-- One pass of the loop: the response of `readByte`, which the loop itself drops, and what is written. -/
structure Iteration where
  response : Response
  written : List OutputLine

/-- The call the line leads to: `virtualAddress = (VirtualAddress)address`. -/
def InputLine.request (x : InputLine) : Request := ⟨BitVec.ofInt 16 x.address.toInt, x.io⟩

/-- The variables before the first line. -/
def runStart (numberOfFramesInPm : Int) (strategy : ReplacementStrategy) (backingStore : BackingStore) : RunState :=
  ⟨initial numberOfFramesInPm strategy backingStore, none, none⟩

/-- The loop body. `readByte` assigns `physicalAddress` and `byte` as far as it gets, and the line is
written whatever it returns; `ch = byte` makes the value a signed `char`. -/
def runLine (st : RunState) (x : InputLine) : Except Undefined (RunState × Iteration) :=
  match st.vmm.readByte x.request with
  | .error e => .error e
  | .ok (vmm, response) =>
    let physicalAddress := response.physicalAddress.or st.physicalAddress
    let byte := response.byte.or st.byte
    .ok (⟨vmm, physicalAddress, byte⟩,
      ⟨response, [⟨x.request.address, physicalAddress, byte.map fun ch => ch.toInt⟩]⟩)

/-! ## What a line should report -/

/-- The response is the byte that the open file has at the address, read from the frame of the page requested,
into which that page has been loaded in full. -/
structure FromStore (m : VirtualMemoryManager) (r : Request) (resp : Response) (f : StoreFile) : Prop where
  file : m.backingStore.file = some f
  stored : r.page.val * pageSize + pageSize ≤ f.size
  valid : m.pageTable.Valid r.page
  loaded : m.physicalMemory.frames (m.pageTable.frame r.page) = f.page (r.page.val * pageSize)
  frame : resp = .ofFrame m.physicalMemory.frames (m.pageTable.frame r.page) r.address
  byte : Delivers f r resp

/-- Nothing is reported that was not read: the pass comes to its end, `getPage` succeeds only on a full read,
`readByte` only with the byte of the request loaded from the store, and a line is written only for a request
that succeeded, with the address and the byte of that request. -/
structure Reported (st : RunState) (x : InputLine) : Prop where
  defined : ∃ st' it, runLine st x = .ok (st', it)
  full : Faults st.vmm x.request → ∀ page, st.vmm.getPage x.request = .ok page →
    x.io.ReadsAll st.vmm.backingStore (x.request.page.val * pageSize)
  loaded : ∀ st' it, runLine st x = .ok (st', it) → it.response.status = statusSuccess →
    ∃ f, FromStore st'.vmm x.request it.response f
  lines : ∀ st' it, runLine st x = .ok (st', it) → ∀ line ∈ it.written, it.response.status = statusSuccess ∧
    line.physicalAddress = it.response.physicalAddress ∧ line.value = it.response.byte.map fun ch => ch.toInt

/-- A page that has to be read is read in full. -/
def FaultReadsAll (st : RunState) (x : InputLine) : Prop :=
  Faults st.vmm x.request → x.io.ReadsAll st.vmm.backingStore (x.request.page.val * pageSize)

/-- A page that has to be read is read in full, and finds a victim if no frame is free; and the TLB has no
entry for the page when it has been evicted. -/
structure Readable (st : RunState) (x : InputLine) : Prop where
  full : FaultReadsAll st x
  answerable : Answerable st.vmm x.request

/-! ## When it does -/

theorem runLine_ok {st st' : RunState} {x : InputLine} {it : Iteration} (h : runLine st x = .ok (st', it)) :
    st.vmm.readByte x.request = .ok (st'.vmm, it.response) ∧
      it.written = [⟨x.request.address, st'.physicalAddress, st'.byte.map fun ch => ch.toInt⟩] ∧
      st'.physicalAddress = it.response.physicalAddress.or st.physicalAddress ∧
      st'.byte = it.response.byte.or st.byte := by
  unfold runLine at h
  split at h
  · cases h
  · rename_i vmm response hr
    cases h
    exact ⟨hr, rfl, rfl, rfl⟩

/-- A fault whose page is not read in full shows: either `getPage` reports success, or a line is
written for a request that failed. -/
theorem Reported.faultReadsAll {st : RunState} {x : InputLine} (h : Reported st x) : FaultReadsAll st x := by
  intro hf
  cases hg : st.vmm.getPage x.request with
  | ok page => exact h.full hf page hg
  | error e =>
    have hr := readByte_fault hf.1 hf.2
    rw [pageFault_failed (m := st.vmm.lookedUp x.request.page) hg] at hr
    have hline : runLine st x = .ok (⟨st.vmm.afterFailure x.request.page, st.physicalAddress, st.byte⟩,
        ⟨.failed, [⟨x.request.address, st.physicalAddress, st.byte.map fun ch => ch.toInt⟩]⟩) := by
      simp only [runLine, hr]
      rfl
    cases (h.lines _ _ hline _ (List.mem_singleton_self _)).1

/-- An honest line is readable: a stale TLB entry answers for a page that is not valid, and a victim search that
finds nothing does not come to an end. -/
theorem Reported.readable {st : RunState} {x : InputLine} (h : Reported st x) : Readable st x := by
  refine ⟨h.faultReadsAll, ?_, ?_⟩
  · rintro ⟨hhit, hinvalid⟩
    obtain ⟨f, hl⟩ := Option.ne_none_iff_exists'.1 hhit
    have hr := readByte_tlbHit hl
    obtain ⟨st', it, hline⟩ := h.defined
    have hread := (runLine_ok hline).1
    rw [hr] at hread
    obtain ⟨hvmm, hresp⟩ := Prod.mk.inj (Except.ok.inj hread)
    obtain ⟨_, hstore⟩ := h.loaded st' it hline (by rw [← hresp]; rfl)
    have hvalid := hstore.valid
    rw [← hvmm] at hvalid
    exact hinvalid ((st.vmm.pageTable.accessPage_valid x.request.page) ▸ hvalid)
  · intro hl hv hs
    obtain ⟨f, _, _, hok⟩ := getPage_readsAll (h.faultReadsAll ⟨hl, hv⟩)
    by_contra hnone
    have hvict := Option.eq_none_iff_forall_ne_some.2 (not_exists.1 hnone)
    obtain ⟨st', it, hline⟩ := h.defined
    have hread := (runLine_ok hline).1
    rw [readByte_no_victim hl hv hok hs hvict] at hread
    cases hread

/-- The page is one the file holds in full, and these are its contents. -/
def StoredPage (bs : BackingStore) (p : PageNumber) (page : Page) : Prop :=
  ∃ f, bs.file = some f ∧ p.val * pageSize + pageSize ≤ f.size ∧ page = f.page (p.val * pageSize)

structure Sound (m : VirtualMemoryManager) : Prop where
  inv : FrameInv m
  coherent : Coherent m
  stored : Holds (StoredPage m.backingStore) m

theorem FaultReadsAll.stored {st : RunState} {x : InputLine} (h : FaultReadsAll st x)
    (hl : st.vmm.tlb.lookup x.request.page = none) (hv : ¬ st.vmm.pageTable.Valid x.request.page) (page : Page)
    (hg : st.vmm.getPage x.request = .ok page) :
    StoredPage st.vmm.backingStore x.request.page page := by
  obtain ⟨f, hf, hle, hok⟩ := getPage_readsAll (h ⟨hl, hv⟩)
  have : st.vmm.getPage x.request = .ok (f.page (x.request.page.val * pageSize)) := hok
  rw [hg] at this
  cases this
  exact ⟨f, hf, hle, rfl⟩

theorem Sound.access {st : RunState} {x : InputLine} {m' : VirtualMemoryManager} {resp : Response} (h : Sound st.vmm)
    (hx : FaultReadsAll st x) (ha : Access st.vmm x.request m' resp) : Sound m' := by
  have hst := h.stored.access h.inv hx.stored ha
  rw [← ha.config.2.1] at hst
  exact ⟨h.inv.access ha, h.coherent.access h.inv ha, hst⟩

theorem Sound.fromStore {st : RunState} {x : InputLine} {m' : VirtualMemoryManager} {resp : Response} (h : Sound st.vmm)
    (hx : Readable st x) (ha : Access st.vmm x.request m' resp) :
    resp.status = statusSuccess ∧ ∃ f, FromStore m' x.request resp f := by
  have hok : resp.status = statusSuccess := ha.succeeds fun hl hv => by
    obtain ⟨f, _, _, hok⟩ := getPage_readsAll (hx.full ⟨hl, hv⟩)
    exact ⟨_, hok⟩
  obtain ⟨hvalid, hframe⟩ := ha.answers hok h.coherent hx.answerable.1
  obtain ⟨f, hf, hle, hpage⟩ := (h.access hx.full ha).stored _ hvalid
  exact ⟨hok, f, hf, hle, hvalid, hpage, hframe, hframe ▸ delivers_ofFrame hpage⟩

/-- On a sound manager a readable line is honestly reported. -/
theorem Sound.reported {st : RunState} {x : InputLine} (h : Sound st.vmm) (hx : Readable st x) : Reported st x := by
  have hanswer : ∀ st' it, runLine st x = .ok (st', it) →
      it.response.status = statusSuccess ∧ ∃ f, FromStore st'.vmm x.request it.response f :=
    fun st' it hline => h.fromStore hx (access_of_readByte h.inv (runLine_ok hline).1)
  constructor
  · obtain ⟨m', resp, hread, _⟩ := readByte_access h.inv x.request hx.answerable.2
    unfold runLine
    rw [hread]
    exact ⟨_, _, rfl⟩
  · exact fun hf _ _ => hx.full hf
  · exact fun st' it hline _ => (hanswer st' it hline).2
  · intro st' it hline line hmem
    obtain ⟨hok, f, hstore⟩ := hanswer st' it hline
    obtain ⟨_, hw, hpa, hbyte⟩ := runLine_ok hline
    rw [hw] at hmem
    cases List.mem_singleton.1 hmem
    -- a successful response carries both values, so nothing is left over from an earlier line
    refine ⟨hok, ?_, ?_⟩
    · simp only [hpa, hstore.frame, Response.ofFrame, Option.some_or]
    · simp only [hbyte, hstore.frame, Response.ofFrame, Option.some_or]

/-! ## Runs -/

/-- With no frame at all, no line is readable: the first page that is read finds neither a frame nor a victim. -/
theorem not_readable {n : Int} (hn : n < 1) {s : ReplacementStrategy} {bs : BackingStore} {x : InputLine} :
    ¬ Readable (runStart n s bs) x := by
  intro h
  have hv : ∀ p, ¬ (initial n s bs).pageTable.Valid p := fun p hp => by cases hp
  have hset : (initial n s bs).workingSet.set = [] := by
    show (WorkingSet.initial n).set = []
    rw [WorkingSet.initial_set, show n.toNat = 0 by omega]
    rfl
  obtain ⟨v, hvict⟩ := h.answerable.2 (Tlb.lookup_initial _) (hv _) hset
  exact hv v (victim_valid hvict)

/-- Nothing is reported that was not read, exactly: on any number of frames, any file or none, and
any kernel answers, the lines of a run are all honestly reported just when every line is readable. -/
theorem run_reported_iff (n : Int) (s : ReplacementStrategy) (bs : BackingStore) (xs : List InputLine) :
    Along runLine Reported (runStart n s bs) xs ↔ Along runLine Readable (runStart n s bs) xs := by
  rcases Int.lt_or_le n 1 with hn | hn
  · refine along_iff (I := fun st => st = runStart n s bs) (fun st x hst => ⟨Reported.readable, ?_⟩)
      (fun st x st' it hst hx _ => ?_) rfl
    · intro hx
      subst hst
      exact absurd hx (not_readable hn)
    · subst hst
      exact absurd hx (not_readable hn)
  · refine along_iff (I := fun st => Sound st.vmm)
      (fun st x hst => ⟨Reported.readable, hst.reported⟩)
      (fun st x st' it hst hx hline => hst.access hx.full (access_of_readByte hst.inv (runLine_ok hline).1)) ?_
    exact ⟨frameInv_initial hn s bs, coherent_initial n s bs, holds_initial _ n s bs⟩

/-- The kernel fails the read of the first page: `errno = rval` leaves `rval` at `status_success`, and
what the buffer held is reported as the byte of the store. -/
theorem run_not_reported :
    ¬ ∀ (n : Int) (s : ReplacementStrategy) (bs : BackingStore) (xs : List InputLine), 1 ≤ n →
      Along runLine Reported (runStart n s bs) xs := by
  intro h
  obtain ⟨hrep, _⟩ := h 1 .fifo ⟨some ⟨65536, fun _ => 7⟩⟩ [⟨0, .ok, .error ⟨5, by decide⟩, fun _ => 0x55⟩] (le_refl _)
  have hfull := hrep.full ⟨Tlb.lookup_initial _, fun hv => by cases hv⟩ _ rfl
  cases hfull.2

end VirtualMemoryManager

end UnixSysProg.Vmm2
