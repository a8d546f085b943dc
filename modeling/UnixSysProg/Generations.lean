/-
The two generations side by side. While the pages requested fit the frames of `pa3_3/VMM2`, it takes
its frames off the stack in the order 0, 1, 2, …, which is the order in which the round-robin counter
of `pa3_2` hands them out; so the two memories, tables and TLBs stay the same, under either strategy
and whatever the kernel answers.
-/
import UnixSysProg.Vmm1.Manager
import UnixSysProg.Vmm2.Step

namespace UnixSysProg

open UnixSysProg.Lib UnixSysProg.Vmm

/-! ## Requests and counters -/

def Vmm2.VirtualMemoryManager.counters (m : Vmm2.VirtualMemoryManager) : Counters :=
  ⟨m.pagefaults, m.pagehits, m.tlbhits, m.pagelookups⟩

def Vmm1.VirtualMemoryManager.counters (m : Vmm1.VirtualMemoryManager) : Counters :=
  ⟨m.pagefaults, m.pagehits, m.tlbhits, m.pagelookups⟩

/-- `readByte`, with the counters after it. -/
def Vmm2.VirtualMemoryManager.readByteCounted (m : Vmm2.VirtualMemoryManager) (r : Request) :
    Except Vmm2.Undefined (Vmm2.VirtualMemoryManager × Response × Counters) :=
  match m.readByte r with
  | .error e => .error e
  | .ok (m', response) => .ok (m', response, m'.counters)

/-- The same of `pa3_2`, which always ends in a state. -/
def Vmm1.VirtualMemoryManager.readByteCounted (m : Vmm1.VirtualMemoryManager) (r : Request) :
    Except Empty (Vmm1.VirtualMemoryManager × Response × Counters) :=
  .ok ((m.readByte r).1, (m.readByte r).2, (m.readByte r).1.counters)

namespace Generations

/-- The same pages, frames, contents and counters, all pages so far among those of `D`. -/
structure Same (D : Finset PageNumber) (s : Vmm2.VirtualMemoryManager) (t : Vmm1.VirtualMemoryManager) : Prop where
  inv : s.FrameInv
  fits : (D.card : Int) ≤ s.numberOfFramesInPm
  known : ∀ p, s.pageTable.Valid p → p ∈ D
  store : t.backingStore = s.backingStore
  memory : t.physicalMemory.frames = s.physicalMemory.frames
  tlb : t.tlb = s.tlb
  valid : ∀ p, t.pageTable.Valid p ↔ s.pageTable.Valid p
  frame : ∀ p, s.pageTable.Valid p → t.pageTable.frame p = s.pageTable.frame p
  next : (t.physicalMemory.frameno.val + 1) % 256 = Vmm2.VirtualMemoryManager.residents s.pageTable % 256
  counters : t.counters = s.counters

namespace Same

variable {D : Finset PageNumber} {s s' : Vmm2.VirtualMemoryManager} {t : Vmm1.VirtualMemoryManager} {r : Request}
  {resp : Response}

open Vmm2.VirtualMemoryManager (residents residents_congr residents_insert residents_lt)

theorem free (h : Same D s t) {p : PageNumber} (hp : p ∈ D) (hv : ¬ s.pageTable.Valid p) : s.workingSet.set ≠ [] := by
  intro hs
  have hlt : residents s.pageTable < D.card := by
    refine Finset.card_lt_card ⟨fun q hq => h.known q (Finset.mem_filter.1 hq).2, fun hsub => ?_⟩
    exact hv (Finset.mem_filter.1 (hsub hp)).2
  have := h.inv.full hs
  have := h.fits
  omega

theorem nextFrame_eq (h : Same D s t) {f : FrameNumber} {rest : List Int} {p : PageNumber}
    (hv : ¬ s.pageTable.Valid p) (hs : s.workingSet.set = (f.val : Int) :: rest) : t.nextFrame = f := by
  have hlt := residents_lt hv
  have htop := (h.inv.free_cons hs).1
  have := h.next
  refine Fin.ext ?_
  rw [Vmm1.VirtualMemoryManager.nextFrame_val]
  omega

theorem lookedUp (h : Same D s t) {p : PageNumber} {s' : Vmm2.VirtualMemoryManager} {t' : Vmm1.VirtualMemoryManager}
    (hi : s'.FrameInv) (hn : s'.numberOfFramesInPm = s.numberOfFramesInPm) (hb : s'.backingStore = s.backingStore)
    (hb' : t'.backingStore = t.backingStore) (hpm : s'.physicalMemory = s.physicalMemory)
    (hpm' : t'.physicalMemory = t.physicalMemory) (hpt : s'.pageTable = s.pageTable.accessPage p)
    (hpt' : t'.pageTable = t.pageTable) (htlb : t'.tlb = s'.tlb) (hc : t'.counters = s'.counters) : Same D s' t' := by
  have hvalid : ∀ q, s'.pageTable.Valid q ↔ s.pageTable.Valid q := by
    intro q
    rw [hpt, Vmm2.PageTable.accessPage_valid]
  refine ⟨hi, by rw [hn]; exact h.fits, fun q hq => h.known q ((hvalid q).1 hq), by rw [hb, hb', h.store],
    by rw [hpm, hpm', h.memory], htlb, ?_, ?_, ?_, hc⟩
  · intro q
    rw [hpt', hvalid, h.valid]
  · intro q hq
    rw [hpt', hpt, Vmm2.PageTable.accessPage_frame]
    exact h.frame q ((hvalid q).1 hq)
  · rw [hpm', residents_congr hvalid]; exact h.next

/-- The page loaded into the same frame in both. -/
theorem load (h : Same D s t) {p : PageNumber} {page : Page} {f : FrameNumber} {rest : List Int} (hp : p ∈ D)
    (hv : ¬ s.pageTable.Valid p) (hs : s.workingSet.set = (f.val : Int) :: rest) :
    Same D (s.afterLoad p page f ⟨rest⟩ (s.pageTable.accessPage p)) (t.afterLoad p page) := by
  have hf := h.nextFrame_eq hv hs
  have hva : ∀ q, (s.afterLoad p page f ⟨rest⟩ (s.pageTable.accessPage p)).pageTable.Valid q ↔
      q = p ∨ s.pageTable.Valid q := by
    intro q
    rw [Vmm2.VirtualMemoryManager.afterLoad_valid, Vmm2.PageTable.accessPage_valid]
  refine ⟨h.inv.freeLoad hv hs, h.fits, ?_, h.store, ?_, ?_, ?_, ?_, ?_, ?_⟩
  · intro q hq
    exact ((hva q).1 hq).elim (· ▸ hp) (h.known q)
  · show Function.update t.physicalMemory.frames t.nextFrame page = Function.update s.physicalMemory.frames f page
    rw [hf, h.memory]
  · show t.tlb.addEntry ⟨p, t.nextFrame, true⟩ = s.tlb.addEntry ⟨p, f, true⟩
    rw [hf, h.tlb]
  · intro q
    rw [hva, Vmm1.VirtualMemoryManager.afterLoad_valid, h.valid]
  · intro q hq
    rw [Vmm1.VirtualMemoryManager.afterLoad_frame, Vmm2.VirtualMemoryManager.afterLoad_frame, hf,
      Vmm2.PageTable.accessPage_frame]
    split
    · rfl
    · rename_i hne; exact h.frame q (((hva q).1 hq).resolve_left hne)
  · rw [residents_insert hv hva]
    show (t.nextFrame.val + 1) % 256 = _
    rw [hf]
    have := (h.inv.free_cons hs).1
    omega
  · have hc := h.counters
    simp only [Vmm1.VirtualMemoryManager.counters, Vmm2.VirtualMemoryManager.counters, Counters.mk.injEq] at hc ⊢
    exact ⟨congrArg (· + 1) hc.1, hc.2.1, hc.2.2.1, congrArg (· + 1) hc.2.2.2⟩

theorem readByte (h : Same D s t) (hr : r.page ∈ D) : ∃ s' t' out, s.readByteCounted r = .ok (s', out) ∧
    t.readByteCounted r = .ok (t', out) ∧ Same D s' t' := by
  have hcnt := h.counters
  simp only [Vmm1.VirtualMemoryManager.counters, Vmm2.VirtualMemoryManager.counters, Counters.mk.injEq] at hcnt
  obtain ⟨c1, c2, c3, c4⟩ := hcnt
  obtain ⟨s', resp, hstep, ha⟩ := Vmm2.VirtualMemoryManager.readByte_access h.inv r
    fun _ hv hs => absurd hs (h.free hr hv)
  have hi := h.inv.access ha
  -- it is enough that `pa3_2` answers alike in a related state
  suffices hsame : ∃ t', t.readByte r = (t', resp) ∧ Same D s' t' by
    obtain ⟨t', ht, hS⟩ := hsame
    refine ⟨s', t', (resp, s'.counters), by simp only [Vmm2.VirtualMemoryManager.readByteCounted, hstep], ?_, hS⟩
    simp only [Vmm1.VirtualMemoryManager.readByteCounted, ht, hS.counters]
  have hmiss : ∀ {f}, s.tlb.lookup r.page = f → t.tlb.lookup r.page = f := fun hf => by rw [h.tlb]; exact hf
  have hinvalid : ¬ s.pageTable.Valid r.page → ¬ t.pageTable.Valid r.page := fun hv hv' => hv ((h.valid _).1 hv')
  have hget : t.getPage r = s.getPage r := by
    unfold Vmm1.VirtualMemoryManager.getPage Vmm2.VirtualMemoryManager.getPage
    rw [h.store]
  cases ha with
  | tlbHit hl =>
    refine ⟨_, by rw [Vmm1.VirtualMemoryManager.readByte_tlbHit (hmiss hl), h.memory], ?_⟩
    refine h.lookedUp hi rfl rfl rfl rfl rfl rfl rfl h.tlb ?_
    exact Counters.mk.injEq .. ▸ ⟨c1, c2, congrArg (· + 1) c3, congrArg (· + 1) c4⟩
  | pageHit hl hv =>
    refine ⟨_, by rw [Vmm1.VirtualMemoryManager.readByte_pageHit (hmiss hl) ((h.valid _).2 hv), h.memory,
      h.frame _ hv], ?_⟩
    refine h.lookedUp hi rfl rfl rfl rfl rfl rfl rfl ?_ ?_
    · show t.tlb.addEntry ⟨r.page, t.pageTable.frame r.page, true⟩ =
        s.tlb.addEntry ⟨r.page, s.pageTable.frame r.page, true⟩
      rw [h.tlb, h.frame _ hv]
    · exact Counters.mk.injEq .. ▸ ⟨c1, congrArg (· + 1) c2, c3, congrArg (· + 1) c4⟩
  | failed hl hv he =>
    refine ⟨_, Vmm1.VirtualMemoryManager.readByte_failed (hmiss hl) (hinvalid hv) (hget.trans he), ?_⟩
    refine h.lookedUp hi rfl rfl rfl rfl rfl rfl rfl h.tlb ?_
    exact Counters.mk.injEq .. ▸ ⟨congrArg (· + 1) c1, c2, c3, congrArg (· + 1) c4⟩
  | freeFrame hl hv hg hs =>
    refine ⟨_, ?_, h.load hr hv hs⟩
    rw [Vmm1.VirtualMemoryManager.readByte_loaded (hmiss hl) (hinvalid hv) (hget.trans hg), h.nextFrame_eq hv hs,
      h.memory]
  | eviction _ hv _ hs _ => exact absurd hs (h.free hr hv)

theorem initial {n : Int} (hn : 1 ≤ n) (st : ReplacementStrategy) (bs : BackingStore) (hD : (D.card : Int) ≤ n) :
    Same D (.initial n st bs) (.initial bs) := by
  have hnone : ∀ p, ¬ (Vmm2.PageTable.initial st).Valid p := fun p hp => by cases hp
  have h0 : residents (Vmm2.PageTable.initial st) = 0 := by unfold residents; simp [hnone]
  refine ⟨Vmm2.VirtualMemoryManager.frameInv_initial hn st bs, hD, fun p hp => absurd hp (hnone p), rfl, rfl, rfl,
    fun p => iff_of_false (fun hp => by cases hp) (hnone p), fun p hp => absurd hp (hnone p), ?_, rfl⟩
  show (PhysicalMemory.initial.frameno.val + 1) % 256 = residents (Vmm2.PageTable.initial st) % 256
  rw [h0]
  decide

end Same

/-- The two generations agree while no eviction is needed: over any backing store and any kernel
answers, for a sequence of requests for at most `n` distinct pages, the manager of `pa3_3/VMM2` with
`n` frames and the manager of `pa3_2` return the same status, physical address and byte on every call
and have the same counters after it. -/
theorem generations_agree {n : Int} (hn : 1 ≤ n) (st : ReplacementStrategy) (bs : BackingStore) {rs : List Request}
    (hpages : ((rs.map Request.page).toFinset.card : Int) ≤ n) :
    ∃ s t outs, run Vmm2.VirtualMemoryManager.readByteCounted (.initial n st bs) rs = .ok (s, outs) ∧
      run Vmm1.VirtualMemoryManager.readByteCounted (.initial bs) rs = .ok (t, outs) := by
  obtain ⟨s, t, outs, outs', hr, hr', _, heq⟩ := run_pair (Q := Eq)
    (R := fun _ s t => Same (rs.map Request.page).toFinset s t)
    (fun pre r post s t hall h _ => by
      obtain ⟨s', t', out, h1, h2, h3⟩ := h.readByte (r := r) (by rw [hall]; simp)
      exact ⟨s', t', out, out, h1, h2, h3, rfl⟩)
    (Same.initial hn st bs hpages) (along_true Vmm2.VirtualMemoryManager.readByteCounted rs _)
  rw [List.forall₂_eq_eq_eq] at heq
  exact ⟨s, t, outs, hr, heq ▸ hr'⟩

theorem generations_agree_two_frames : ∃ s t outs,
    run Vmm2.VirtualMemoryManager.readByteCounted (.initial 2 .lru ⟨some ⟨65536, fun _ => 7⟩⟩)
      [.served 0, .served 256, .served 1] = .ok (s, outs) ∧
    run Vmm1.VirtualMemoryManager.readByteCounted (.initial ⟨some ⟨65536, fun _ => 7⟩⟩)
      [.served 0, .served 256, .served 1] = .ok (t, outs) :=
  generations_agree (by decide) .lru _ (by decide)

end Generations

end UnixSysProg
