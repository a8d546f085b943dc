/-
The statistics of both generations. Every `readByte` counts one lookup and one of a TLB hit, a page hit and
a page fault, on whichever branch it leaves, so the counters always add up. What `getStats` reports need
not: its parameter is `pageHits` and the member `pagehits`, and the line meant for the parameter assigns
the member to itself.
-/
import UnixSysProg.Generations

namespace UnixSysProg

open UnixSysProg.Lib UnixSysProg.Vmm

namespace Vmm

/-- The output parameters of `getStats`, as they are before or after the call. -/
structure Stats where
  totalLookups : Int32
  pagefaults : Int32
  pageHits : Int32
  tlbhits : Int32
  deriving DecidableEq

/-- The statistics account for `n` requests. -/
def Stats.AddUp (st : Stats) (n : Nat) : Prop :=
  st.totalLookups.toInt = n ∧ st.tlbhits.toInt + st.pageHits.toInt + st.pagefaults.toInt = n

end Vmm

/-- `VirtualMemoryManager::getStats` of `pa3_3/VMM2`: `pageHits` is not written. -/
def Vmm2.VirtualMemoryManager.getStats (m : Vmm2.VirtualMemoryManager) (out : Stats) :
    Vmm2.VirtualMemoryManager × Stats :=
  ({ m with pagehits := m.pagehits },
    { out with totalLookups := m.pagelookups, pagefaults := m.pagefaults, tlbhits := m.tlbhits })

/-- The same function of `pa3_2`. -/
def Vmm1.VirtualMemoryManager.getStats (m : Vmm1.VirtualMemoryManager) (out : Stats) :
    Vmm1.VirtualMemoryManager × Stats :=
  ({ m with pagehits := m.pagehits },
    { out with totalLookups := m.pagelookups, pagefaults := m.pagefaults, tlbhits := m.tlbhits })

namespace Statistics

/-! ## What a request counts -/

/-- One request counted: as a lookup, and as one of the three ways to find a page. -/
inductive Counted (c : Counters) : Counters → Prop
  | tlbHit : Counted c { c with pagelookups := c.pagelookups + 1, tlbhits := c.tlbhits + 1 }
  | pageHit : Counted c { c with pagelookups := c.pagelookups + 1, pagehits := c.pagehits + 1 }
  | pageFault : Counted c { c with pagelookups := c.pagelookups + 1, pagefaults := c.pagefaults + 1 }

theorem Counted.lookups {c c' : Counters} (h : Counted c c') : c'.pagelookups = c.pagelookups + 1 := by
  cases h <;> rfl

theorem counted_readByte_pa3_2 (m : Vmm1.VirtualMemoryManager) (r : Request) :
    Counted m.counters (m.readByte r).1.counters := by
  cases hl : m.tlb.lookup r.page with
  | some f =>
    rw [Vmm1.VirtualMemoryManager.readByte_tlbHit hl]
    exact .tlbHit
  | none =>
    by_cases hv : m.pageTable.Valid r.page
    · rw [Vmm1.VirtualMemoryManager.readByte_pageHit hl hv]
      exact .pageHit
    · cases hg : m.getPage r with
      | error e =>
        rw [Vmm1.VirtualMemoryManager.readByte_failed hl hv hg]
        exact .pageFault
      | ok page =>
        rw [Vmm1.VirtualMemoryManager.readByte_loaded hl hv hg]
        exact .pageFault

section Faults

open Vmm2 Vmm2.VirtualMemoryManager

variable {m m' : Vmm2.VirtualMemoryManager}

theorem acquireFrame_counters {f : FrameNumber} (h : m.acquireFrame = .ok (m', f)) : m'.counters = m.counters := by
  unfold acquireFrame at h
  split at h
  · cases h
    rfl
  · split at h
    · cases h
    · split at h
      · cases h
      · split at h <;> cases h <;> rfl

theorem installPage_counters (m : Vmm2.VirtualMemoryManager) (p : PageNumber) (e : Vmm2.PageEntry) (page : Page)
    (f : FrameNumber) : (m.installPage p e page f).1.counters = m.counters := by
  unfold installPage
  split <;> rfl

/-- A page fault is counted before anything can go wrong. -/
theorem pageFault_counters {p : PageNumber} {e : Vmm2.PageEntry} {io : IoOutcome} {f : Option FrameNumber}
    (h : m.pageFault p e io = .ok (m', f)) :
    m'.counters = { m.counters with pagefaults := m.pagefaults + 1 } := by
  simp only [Vmm2.VirtualMemoryManager.pageFault] at h
  split at h
  · cases h
    rfl
  · split at h
    · cases h
    · rename_i page _ _ m₁ frameno hacq
      have hinst := installPage_counters m₁ p e page frameno
      rw [Except.ok.inj h] at hinst
      exact hinst.trans (acquireFrame_counters hacq)

theorem counted_readByte {r : Request} {resp : Response} (h : m.readByte r = .ok (m', resp)) :
    Counted m.counters m'.counters := by
  cases hl : m.tlb.lookup r.page with
  | some f =>
    rw [readByte_tlbHit hl] at h
    cases h
    exact .tlbHit
  | none =>
    by_cases hv : m.pageTable.Valid r.page
    · rw [readByte_pageHit hl hv] at h
      cases h
      exact .pageHit
    · rw [readByte_fault hl hv] at h
      split at h
      · cases h
      · rename_i hfault
        cases h
        rw [pageFault_counters hfault]
        exact .pageFault
      · rename_i m₁ f hfault
        cases h
        have hcnt : m₁.counters = { m.counters with
            pagelookups := m.pagelookups + 1, pagefaults := m.pagefaults + 1 } := pageFault_counters hfault
        show Counted m.counters m₁.counters
        rw [hcnt]
        exact .pageFault

end Faults

/-! ## The sum -/

/-- The counters after `n` requests: modulo 2^32, they add up. -/
def Tallied (n : Nat) (c : Counters) : Prop := ∃ hits pages faults : Nat, hits + pages + faults = n ∧
  c = ⟨.ofNat faults, .ofNat pages, .ofNat hits, .ofNat n⟩

theorem Tallied.counted {n : Nat} {c c' : Counters} (h : Tallied n c) (hc : Counted c c') : Tallied (n + 1) c' := by
  obtain ⟨hits, pages, faults, hsum, rfl⟩ := h
  cases hc with
  | tlbHit => exact ⟨hits + 1, pages, faults, by omega, by simp [Int32.ofNat_add]⟩
  | pageHit => exact ⟨hits, pages + 1, faults, by omega, by simp [Int32.ofNat_add]⟩
  | pageFault => exact ⟨hits, pages, faults + 1, by omega, by simp [Int32.ofNat_add]⟩

/-- Statistics that take everything but the page hits from the counters. -/
theorem Tallied.addUp_iff {n : Nat} {c : Counters} (h : Tallied n c) (pageHits : Int32) :
    Stats.AddUp ⟨c.pagelookups, c.pagefaults, pageHits, c.tlbhits⟩ n ↔ n < 2 ^ 31 ∧ pageHits = c.pagehits := by
  obtain ⟨hits, pages, faults, hsum, rfl⟩ := h
  have hval : ∀ k, k ≤ n → n < 2 ^ 31 → (Int32.ofNat k).toInt = k :=
    fun k hk hn => Int32.toInt_ofNat_of_lt (by omega)
  constructor
  · rintro ⟨htotal, hcnt⟩
    -- an `int` that counts to `n` has not run over
    have hn : n < 2 ^ 31 := by
      have := Int32.toInt_lt (Int32.ofNat n)
      simp only at htotal
      omega
    refine ⟨hn, Int32.toInt_inj.1 ?_⟩
    simp only [hval hits (by omega) hn, hval faults (by omega) hn] at hcnt
    rw [hval pages (by omega) hn]
    omega
  · rintro ⟨hn, rfl⟩
    constructor
    · exact hval n (le_refl n) hn
    · simp only [hval hits (by omega) hn, hval faults (by omega) hn, hval pages (by omega) hn]
      omega

/-! ## Runs -/

theorem tallied_run {n : Int} {s : ReplacementStrategy} {bs : BackingStore} {rs : List Request}
    {m : Vmm2.VirtualMemoryManager} {resps : List Response}
    (hr : run Vmm2.VirtualMemoryManager.readByte (.initial n s bs) rs = .ok (m, resps)) :
    Tallied rs.length m.counters := by
  refine run_history (P := fun pre _ m => Tallied pre.length m.counters) ?_ ⟨0, 0, 0, rfl, rfl⟩
    (along_true _ rs _) hr
  intro pre _ m r m' resp h _ hstep
  rw [List.length_append]
  exact h.counted (counted_readByte hstep)

theorem tallied_run_pa3_2 (bs : BackingStore) (rs : List Request) : ∃ m resps,
    run Vmm1.VirtualMemoryManager.step (.initial bs) rs = .ok (m, resps) ∧ Tallied rs.length m.counters := by
  refine run_total (P := fun pre _ (m : Vmm1.VirtualMemoryManager) => Tallied pre.length m.counters) ?_
    ⟨0, 0, 0, rfl, rfl⟩ (along_true _ rs _)
  intro pre r post _ m _ h _
  refine ⟨_, _, rfl, ?_⟩
  rw [List.length_append]
  exact h.counted (counted_readByte_pa3_2 m r)

/-- What `getStats` reports after a run adds up exactly when the run is short enough for an `int` and the
variable passed for the page hits held their number before the call. -/
theorem stats_add_up (rs : List Request) (out : Stats) :
    (∀ n s bs m resps, run Vmm2.VirtualMemoryManager.readByte (.initial n s bs) rs = .ok (m, resps) →
        ((m.getStats out).2.AddUp rs.length ↔ rs.length < 2 ^ 31 ∧ out.pageHits = m.pagehits)) ∧
      ∀ bs, ∃ m resps, run Vmm1.VirtualMemoryManager.step (.initial bs) rs = .ok (m, resps) ∧
        ((m.getStats out).2.AddUp rs.length ↔ rs.length < 2 ^ 31 ∧ out.pageHits = m.pagehits) := by
  constructor
  · intro n s bs m resps hr
    exact (tallied_run hr).addUp_iff out.pageHits
  · intro bs
    obtain ⟨m, resps, hr, h⟩ := tallied_run_pa3_2 bs rs
    exact ⟨m, resps, hr, h.addUp_iff out.pageHits⟩

/-- One request, its page not read, and a variable that held 7: seven page hits are reported. -/
theorem stats_add_up_stale : ∃ m resps,
    run Vmm2.VirtualMemoryManager.readByte (.initial 1 .lru ⟨none⟩) [.served 0] = .ok (m, resps) ∧
      (m.getStats ⟨0, 0, 7, 0⟩).2 = ⟨1, 1, 7, 0⟩ ∧ ¬ (m.getStats ⟨0, 0, 7, 0⟩).2.AddUp 1 := by
  refine ⟨_, _, rfl, rfl, ?_⟩
  rintro ⟨_, hcnt⟩
  exact absurd hcnt (by decide)

end Statistics

end UnixSysProg
