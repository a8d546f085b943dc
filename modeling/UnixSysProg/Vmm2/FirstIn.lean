/-
Fifo by the history of the page faults: the valid pages are those of the last `n` faults, stamped in the
order in which they were loaded. The first `n` faults take the frames off the free stack in order, and from
then on every fault takes the frame that was loaded `n` faults ago, so the frames go round.
-/
import UnixSysProg.Vmm2.Inclusion
import UnixSysProg.Lib.Fifo

namespace UnixSysProg.Vmm2

open UnixSysProg.Lib UnixSysProg.Vmm

namespace VirtualMemoryManager

/-- The pages of the requests that fault, in their order. -/
def faulted : VirtualMemoryManager → List Request → List PageNumber
  | _, [] => []
  | m, r :: rs =>
    match m.readByte r with
    | .error _ => []
    | .ok (m', _) => if m.Faults r then r.page :: faulted m' rs else faulted m' rs

/-- The state with `n` frames after the page faults on `ps` under Fifo. -/
structure FirstIn (n : Nat) (ps : List PageNumber) (m : VirtualMemoryManager) : Prop where
  entered : Entered n ps
  valid : ∀ p, m.pageTable.Valid p ↔ p ∈ held n ps
  /-- The page of fault `k + 1` is in frame `k % n`. -/
  frame : ∀ k p, ps[k]? = some p → ps.length ≤ k + n → (m.pageTable.frame p).val = k % n
  order : (held n ps).Pairwise fun p q => m.pageTable.stamp p < m.pageTable.stamp q

namespace FirstIn

variable {n : Nat} {ps : List PageNumber} {m m' : VirtualMemoryManager} {r : Request} {resp : Response} {c : Int}
  {p v : PageNumber}

theorem initial (n : Nat) (k : Int) (bs : BackingStore) : FirstIn n [] (initial k .fifo bs) := by
  constructor
  · exact .nil
  · intro p
    exact iff_of_false (fun hp => by cases hp) (by simp [held])
  · intro k p hp
    cases hp
  · simp [held]

theorem residents (h : FirstIn (n + 1) ps m) : residents m.pageTable = (held (n + 1) ps).length := by
  have : Finset.univ.filter m.pageTable.Valid = (held (n + 1) ps).toFinset := by
    ext p
    simp [h.valid]
  unfold VirtualMemoryManager.residents
  rw [this, List.toFinset_card_of_nodup h.entered.nodup]

theorem oldest {rest : List PageNumber} {b : PageNumber} (h : FirstIn n ps m) (hheld : held n ps = b :: rest)
    (hv : Oldest m.pageTable.Valid m.pageTable.stamp v) : v = b := by
  have horder := h.order
  have hmem := (h.valid v).1 hv.1
  rw [hheld] at horder hmem
  rcases List.mem_cons.1 hmem with rfl | hrest
  · rfl
  · have hlt := List.rel_of_pairwise_cons horder hrest
    have hb : m.pageTable.Valid b := (h.valid b).2 (by rw [hheld]; exact List.mem_cons_self)
    exact absurd hlt (not_lt.2 (hv.2 b hb))

theorem keep (h : FirstIn n ps m) (hv : ∀ q, m'.pageTable.Valid q ↔ m.pageTable.Valid q)
    (hf : ∀ q, m'.pageTable.frame q = m.pageTable.frame q) (hs : m'.pageTable.stamp = m.pageTable.stamp) :
    FirstIn n ps m' := by
  constructor
  · exact h.entered
  · intro p
    rw [hv, h.valid]
  · intro k p hp hk
    rw [hf]
    exact h.frame k p hp hk
  · rw [hs]
    exact h.order

/-- The page of a fault comes last, and of the other pages those stay that are still held. -/
theorem load (h : FirstIn (n + 1) ps m) (hp : ¬ m.pageTable.Valid p)
    (hnew : Newest m.pageTable.Valid m.pageTable.stamp m'.pageTable.Valid m'.pageTable.stamp p)
    (hv : ∀ q, m'.pageTable.Valid q ↔ q ∈ held (n + 1) (ps ++ [p]))
    (hf : ∀ q, q ≠ p → m'.pageTable.frame q = m.pageTable.frame q)
    (hframe : (m'.pageTable.frame p).val = ps.length % (n + 1)) : FirstIn (n + 1) (ps ++ [p]) m' := by
  have hout : p ∉ held (n + 1) ps := fun hmem => hp ((h.valid p).2 hmem)
  constructor
  · exact h.entered.enter hout
  · exact hv
  · intro k q hq hk
    rw [List.length_append, List.length_singleton] at hk
    by_cases hlast : k < ps.length
    · rw [List.getElem?_append_left hlast] at hq
      have hmem : q ∈ held (n + 1) ps := mem_held_of_getElem? hq (by omega)
      rw [hf q fun he => hout (he ▸ hmem)]
      exact h.frame k q hq (by omega)
    · have hlt := (List.getElem?_eq_some_iff.1 hq).1
      rw [List.length_append, List.length_singleton] at hlt
      obtain rfl : k = ps.length := by omega
      rw [List.getElem?_concat_length] at hq
      cases hq
      exact hframe
  · have hstep : ∀ q ∈ held (n + 1) (ps ++ [p]), q ≠ p →
        m'.pageTable.stamp q = m.pageTable.stamp q ∧ m.pageTable.stamp q < m'.pageTable.stamp p :=
      fun q hq hqp => (hnew q ((hv q).2 hq) hqp).2
    obtain ⟨kept, hsub, hkept⟩ := held_concat n ps p
    have hne : ∀ q ∈ kept, q ≠ p := fun q hq he => hout (he ▸ hsub.subset hq)
    rw [hkept] at hstep ⊢
    refine List.pairwise_append.2 ⟨?_, List.pairwise_singleton _ _, ?_⟩
    · refine (h.order.sublist hsub).imp_of_mem fun {q q'} hq hq' hlt => ?_
      rw [(hstep q (List.mem_append_left _ hq) (hne q hq)).1, (hstep q' (List.mem_append_left _ hq') (hne q' hq')).1]
      exact hlt
    · intro q hq q' hq'
      obtain rfl := List.mem_singleton.1 hq'
      obtain ⟨heq, hlt⟩ := hstep q (List.mem_append_left _ hq) (hne q hq)
      rw [heq]
      exact hlt

theorem access (h : FirstIn (n + 1) ps m) (hi : FrameInv m) (hn : m.numberOfFramesInPm.toNat = n + 1)
    (hs : m.pageTable.strategy = .fifo) (ht : Ticking m.pageTable c) (hc : c + 1 < 2 ^ 31 - 1) (ha : Access m r m' resp)
    (hg : ∃ page, m.getPage r = .ok page) : FirstIn (n + 1) (if m.Faults r then ps ++ [r.page] else ps) m' := by
  have hstamp : (m.pageTable.accessPage r.page).stamp = m.pageTable.stamp := by
    rw [(m.pageTable.accessPage_stamp r.page).1, if_neg (by rw [hs]; decide)]
  have hvalid : ∀ q, (m.pageTable.accessPage r.page).Valid q ↔ m.pageTable.Valid q := by
    intro q
    rw [PageTable.accessPage_valid]
  have hlen := h.residents
  cases ha with
  | tlbHit hl =>
    rw [if_neg fun hf : m.Faults r => by rw [hf.1] at hl; cases hl]
    exact h.keep hvalid (PageTable.accessPage_frame _ _) hstamp
  | pageHit _ hv =>
    rw [if_neg fun hf : m.Faults r => hf.2 hv]
    exact h.keep hvalid (PageTable.accessPage_frame _ _) hstamp
  | failed _ _ he =>
    obtain ⟨page, hok⟩ := hg
    rw [hok] at he
    cases he
  | @freeFrame page f rest hl hp _ hfree =>
    obtain ⟨htop, hlt, _⟩ := hi.free_cons hfree
    rw [hn] at hlt
    have hroom : ps.length < n + 1 := by
      by_contra hfull
      rw [held_length (not_lt.1 hfull)] at hlen
      omega
    rw [held_of_length_le hroom.le] at hlen
    rw [if_pos ⟨hl, hp⟩]
    refine h.load hp (newest_freeLoad ht (by omega) _ _ _ _) ?_ ?_ ?_
    · intro q
      rw [afterLoad_valid, hvalid, h.valid, held_room hroom, List.mem_append, List.mem_singleton, or_comm]
    · intro q hq
      rw [afterLoad_frame, if_neg hq, PageTable.accessPage_frame]
    · rw [afterLoad_frame, if_pos rfl, Nat.mod_eq_of_lt hroom]
      omega
  | @eviction page v hl hp _ hfree hvict =>
    have hfull := hi.full hfree
    rw [hn] at hfull
    have hroom : n + 1 ≤ ps.length := by
      by_contra hroom
      rw [held_of_length_le (not_le.1 hroom).le] at hlen
      omega
    obtain ⟨b, rest, hget, hheld, hnext⟩ := held_full (a := r.page) hroom
    have hold := victim_oldest_of_fault hp hvict
    obtain rfl := h.oldest hheld hold
    rw [if_pos ⟨hl, hp⟩]
    refine h.load hp (newest_evictionLoad ht hc _ _ _ _ _) ?_ ?_ ?_
    · intro q
      rw [afterLoad_valid, evictedTable_valid, h.valid, h.entered.mem_held, hget]
      simp [hroom, eq_comm]
    · intro q hq
      rw [afterLoad_frame, if_neg hq, evictedTable_frame]
    · rw [afterLoad_frame, if_pos rfl, h.frame _ v hget (by omega)]
      exact (Nat.mod_eq_sub_mod hroom).symm

/-- What a fault does: its page is loaded into the next frame in turn, and the page that goes is the one
loaded `n + 1` faults ago. -/
theorem turn (h : FirstIn (n + 1) ps m) (h' : FirstIn (n + 1) (ps ++ [p]) m') (hp : ¬ m.pageTable.Valid p) :
    m'.pageTable.Valid p ∧ (m'.pageTable.frame p).val = ps.length % (n + 1) ∧
      ∀ v, (m.pageTable.Valid v ∧ ¬ m'.pageTable.Valid v) ↔ n + 1 ≤ ps.length ∧ ps[ps.length - (n + 1)]? = some v := by
  refine ⟨(h'.valid p).2 mem_held_self, h'.frame _ p List.getElem?_concat_length ?_, ?_⟩
  · rw [List.length_append, List.length_singleton]
    omega
  · intro v
    rw [h'.valid, h.entered.mem_held, h.valid]
    constructor
    · rintro ⟨hv, hnot⟩
      rw [not_or, not_and, Classical.not_imp, not_not] at hnot
      exact hnot.2 hv
    · rintro ⟨hroom, hget⟩
      obtain ⟨b, rest, hb, hheld, _⟩ := held_full (a := p) hroom
      obtain rfl : b = v := Option.some.inj (hb.symm.trans hget)
      have hmem : b ∈ held (n + 1) ps := by rw [hheld]; exact List.mem_cons_self
      refine ⟨hmem, ?_⟩
      rintro (rfl | ⟨_, hne⟩)
      · exact hp ((h.valid b).2 hmem)
      · exact hne hroom hget

end FirstIn

/-! ## Runs -/

theorem FirstIn.run {n : Nat} {k : Int} {bs : BackingStore} (hk : k.toNat = n + 1) {rs : List Request}
    (hio : ∀ r ∈ rs, ∃ page, bs.getPage (r.page.val * pageSize) pageSize r.io = .ok page) :
    ∀ {ps : List PageNumber} {m : VirtualMemoryManager} {c : Int}, FirstIn (n + 1) ps m → FrameInv m →
      Ticking m.pageTable c → Config k .fifo bs m → c + 3 * rs.length < 2 ^ 31 - 1 →
      ∃ m' resps, run readByte m rs = .ok (m', resps) ∧ FirstIn (n + 1) (ps ++ faulted m rs) m' ∧ FrameInv m' ∧
        Ticking m'.pageTable (c + 3 * rs.length) ∧ Config k .fifo bs m' := by
  induction rs with
  | nil =>
    intro ps m c h hi ht hc _
    exact ⟨m, [], rfl, by simpa [faulted] using h, hi, by simpa using ht, hc⟩
  | cons r rs ih =>
    intro ps m c h hi ht hc hlen
    rw [List.length_cons] at hlen
    obtain ⟨hr, hrs⟩ := List.forall_mem_cons.1 hio
    obtain ⟨m', resp, hstep, ha, hi', ht'⟩ := readByte_step hi ht (by omega) r
    have h' := h.access hi (by rw [hc.frames, hk]) hc.strategy ht (by omega) ha (by unfold getPage; rw [hc.store]; exact hr)
    obtain ⟨m'', resps, hrun, hf, hi'', ht'', hc''⟩ := ih hrs h' hi' ht' (hc.access ha) (by omega)
    refine ⟨m'', _, run_cons_ok.2 ⟨m', resp, resps, hstep, hrun, rfl⟩, ?_, hi'', ?_, hc''⟩
    · unfold faulted
      rw [hstep]
      dsimp only
      split_ifs with hfault
      · rw [if_pos hfault] at hf
        simpa using hf
      · rwa [if_neg hfault] at hf
    · rw [List.length_cons]
      exact ht''.mono (by omega)

/-- Fifo is round robin over the frames: after any requests `rs` whose pages can be read, when `r` is the
`k`-th page fault its page is loaded into frame `(k - 1) % n`, and the page that becomes invalid is the one
loaded by fault `k - n`, if there was one. -/
theorem fifo_round_robin {n : Int} (hn : 1 ≤ n) (bs : BackingStore) {rs : List Request} (r : Request)
    (hlen : rs.length + 1 < 2 ^ 29)
    (hio : ∀ r' ∈ rs ++ [r], ∃ page, bs.getPage (r'.page.val * pageSize) pageSize r'.io = .ok page) :
    ∃ m resps m' resp, run readByte (initial n .fifo bs) rs = .ok (m, resps) ∧ m.readByte r = .ok (m', resp) ∧
      (m.Faults r → ∀ k, k = (faulted (initial n .fifo bs) rs).length + 1 → m'.pageTable.Valid r.page ∧
        (m'.pageTable.frame r.page).val = (k - 1) % n.toNat ∧
        ∀ v, (m.pageTable.Valid v ∧ ¬ m'.pageTable.Valid v) ↔
          n.toNat < k ∧ (faulted (initial n .fifo bs) rs)[k - n.toNat - 1]? = some v) := by
  obtain ⟨N, hN⟩ : ∃ N, n.toNat = N + 1 := ⟨n.toNat - 1, by omega⟩
  obtain ⟨m, resps, hrun, hf, hi, ht, hc⟩ := FirstIn.run hN (fun r' hr' => hio r' (List.mem_append_left _ hr'))
    (FirstIn.initial (N + 1) n bs) (frameInv_initial hn .fifo bs) (Ticking.initial .fifo) ⟨rfl, rfl, rfl⟩ (by omega)
  obtain ⟨m', resp, hstep, ha, _, _⟩ := readByte_step hi ht (by omega) r
  have hf' := hf.access hi (by rw [hc.frames, hN]) hc.strategy ht (by omega) ha
    (by unfold getPage; rw [hc.store]; exact hio r (by simp))
  rw [List.nil_append] at hf hf'
  refine ⟨m, resps, m', resp, hrun, hstep, ?_⟩
  rintro hfault k rfl
  rw [if_pos hfault] at hf'
  obtain ⟨hvalid, hframe, hout⟩ := hf.turn hf' hfault.2
  refine ⟨hvalid, by rw [hframe, hN, Nat.add_sub_cancel], fun v => ?_⟩
  rw [hout v, hN, Nat.lt_succ_iff, Nat.sub_right_comm, Nat.add_sub_cancel]

theorem fifo_round_robin_two_frames : ∃ m resps m' resp,
    run readByte (initial 2 .fifo ⟨some ⟨65536, fun _ => 7⟩⟩) [.served 0, .served 256, .served 1] = .ok (m, resps) ∧
      m.readByte (.served 512) = .ok (m', resp) ∧ m'.pageTable.Valid 2 ∧ (m'.pageTable.frame 2).val = 0 ∧
      ∀ v, (m.pageTable.Valid v ∧ ¬ m'.pageTable.Valid v) ↔ v = 0 := by
  obtain ⟨m, resps, m', resp, hrun, hstep, hround⟩ := fifo_round_robin (n := 2) (by decide) ⟨some ⟨65536, fun _ => 7⟩⟩
    (.served 512) (show [Request.served 0, .served 256, .served 1].length + 1 < 2 ^ 29 by decide)
    (by simp [Request.served, BackingStore.getPage, BackingStore.lseek])
  have hfaults : (run readByte (initial 2 .fifo ⟨some ⟨65536, fun _ => 7⟩⟩) [.served 0, .served 256, .served 1]).toOption.map
      (fun x => decide (x.1.Faults (.served 512))) = some true := by decide +kernel
  rw [hrun] at hfaults
  have hlog : faulted (initial 2 .fifo ⟨some ⟨65536, fun _ => 7⟩⟩) [.served 0, .served 256, .served 1] = [0, 1] := by
    decide +kernel
  rw [hlog] at hround
  have hpage : (Request.served 512).page = 2 := by decide
  obtain ⟨hvalid, hframe, hout⟩ := hround (of_decide_eq_true (Option.some.inj hfaults)) 3 rfl
  rw [hpage] at hvalid hframe
  refine ⟨m, resps, m', resp, hrun, hstep, hvalid, hframe, fun v => ?_⟩
  rw [hout v]
  simp [eq_comm]

end VirtualMemoryManager

end UnixSysProg.Vmm2
