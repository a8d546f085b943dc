/-
The TLB in both generations. It is the same table entered in the same order, whatever the page tables behind
it do: evictions leave it alone, so that the requests that hit it depend on nothing but the pages requested.
As a first-in-first-out cache of sixteen pages it is competitive with any other that has at most sixteen.
-/
import UnixSysProg.Vmm1.TlbCache
import UnixSysProg.Vmm2.Inclusion
import UnixSysProg.Lib.Competitive

namespace UnixSysProg

open UnixSysProg.Lib UnixSysProg.Vmm

/-! ## What a request does to the TLB -/

/-- A request for page `p` either hits and is counted, or misses and enters its page. -/
def Looked (t : Tlb) (hits : Int32) (p : PageNumber) (t' : Tlb) (hits' : Int32) : Prop :=
  (t.lookup p ≠ none ∧ t' = t ∧ hits' = hits + 1) ∨
    (t.lookup p = none ∧ (∃ f, t' = t.addEntry ⟨p, f, true⟩) ∧ hits' = hits)

theorem Vmm1.VirtualMemoryManager.looked {m : Vmm1.VirtualMemoryManager} {r : Request}
    (hg : ∃ page, m.getPage r = .ok page) : Looked m.tlb m.tlbhits r.page (m.readByte r).1.tlb (m.readByte r).1.tlbhits := by
  cases hl : m.tlb.lookup r.page with
  | some f =>
    rw [readByte_tlbHit hl]
    exact .inl ⟨by rw [hl]; exact Option.some_ne_none f, rfl, rfl⟩
  | none =>
    by_cases hv : m.pageTable.Valid r.page
    · rw [readByte_pageHit hl hv]
      exact .inr ⟨hl, ⟨_, rfl⟩, rfl⟩
    · obtain ⟨page, hpage⟩ := hg
      rw [readByte_loaded hl hv hpage]
      exact .inr ⟨hl, ⟨_, rfl⟩, rfl⟩

theorem Vmm2.VirtualMemoryManager.Access.looked {m m' : Vmm2.VirtualMemoryManager} {r : Request} {resp : Response}
    (ha : Access m r m' resp) (hg : ∃ page, m.getPage r = .ok page) :
    Looked m.tlb m.tlbhits r.page m'.tlb m'.tlbhits := by
  cases ha with
  | tlbHit hl => exact .inl ⟨by rw [hl]; exact Option.some_ne_none _, rfl, rfl⟩
  | pageHit hl _ => exact .inr ⟨hl, ⟨_, rfl⟩, rfl⟩
  | failed _ _ he =>
    obtain ⟨page, hok⟩ := hg
    rw [hok] at he
    cases he
  | freeFrame hl _ _ _ => exact .inr ⟨hl, ⟨_, rfl⟩, rfl⟩
  | eviction hl _ _ _ _ => exact .inr ⟨hl, ⟨_, rfl⟩, rfl⟩

/-- Tables with the same pages still have the same pages, and the counts are still equal. -/
theorem Looked.agree {t t' u u' : Tlb} {hits hits' k' : Int32} {p : PageNumber} (h : Looked t hits p t' hits')
    (h' : Looked u hits p u' k') (hs : t.SamePages u) : t'.SamePages u' ∧ hits' = k' := by
  have hmiss := hs.lookup_none p
  rcases h with ⟨hl, rfl, rfl⟩ | ⟨hl, ⟨f, rfl⟩, rfl⟩ <;> rcases h' with ⟨hl', rfl, rfl⟩ | ⟨hl', ⟨f', rfl⟩, rfl⟩
  · exact ⟨hs, rfl⟩
  · exact absurd (hmiss.2 hl') hl
  · exact absurd (hmiss.1 hl) hl'
  · exact ⟨hs.addEntry rfl rfl, rfl⟩

/-! ## Both generations -/

/-- The manager `m` of `pa3_2` next to that of `pa3_3/VMM2` after the same requests; the clock of the latter is
at most `c`. -/
structure TlbsAlike (n : Int) (s : ReplacementStrategy) (bs : BackingStore) (c : Int) (m : Vmm1.VirtualMemoryManager)
    (m' : Vmm2.VirtualMemoryManager) : Prop where
  same : m.tlb.SamePages m'.tlb
  hits : m.tlbhits = m'.tlbhits
  store : m.backingStore = bs
  inv : m'.FrameInv
  ticking : Vmm2.Ticking m'.pageTable c
  config : m'.Config n s bs

theorem TlbsAlike.initial {n : Int} (hn : 1 ≤ n) (s : ReplacementStrategy) (bs : BackingStore) :
    TlbsAlike n s bs 0 (.initial bs) (.initial n s bs) where
  same := Tlb.SamePages.refl _
  hits := rfl
  store := rfl
  inv := Vmm2.VirtualMemoryManager.frameInv_initial hn s bs
  ticking := Vmm2.Ticking.initial s
  config := ⟨rfl, rfl, rfl⟩

theorem TlbsAlike.readByte {n : Int} {s : ReplacementStrategy} {bs : BackingStore} {c : Int} {m : Vmm1.VirtualMemoryManager}
    {m' : Vmm2.VirtualMemoryManager} {r : Request} (h : TlbsAlike n s bs c m m') (hc : c + 2 < 2 ^ 31 - 1)
    (hg : ∃ page, bs.getPage (r.page.val * pageSize) pageSize r.io = .ok page) :
    ∃ m₁' resp, m'.readByte r = .ok (m₁', resp) ∧ TlbsAlike n s bs (c + 3) (m.readByte r).1 m₁' := by
  obtain ⟨m₁', resp, hr, ha, hi, ht⟩ := Vmm2.VirtualMemoryManager.readByte_step h.inv h.ticking hc r
  have h1 := Vmm1.VirtualMemoryManager.looked (m := m) (r := r)
    (by unfold Vmm1.VirtualMemoryManager.getPage; rw [h.store]; exact hg)
  have h2 := ha.looked (by unfold Vmm2.VirtualMemoryManager.getPage; rw [h.config.store]; exact hg)
  rw [← h.hits] at h2
  obtain ⟨hsame, hhits⟩ := h1.agree h2 h.same
  exact ⟨m₁', resp, hr, hsame, hhits, (Vmm1.VirtualMemoryManager.readByte_counted m r).1.trans h.store, hi, ht,
    h.config.access ha⟩

/-- The TLB does the same in both generations, evictions or not: after the same requests, their pages to be
had, the two have counted the same hits and hold the same pages, under either strategy and with any number of
frames. -/
theorem tlb_hits_agree {n : Int} (hn : 1 ≤ n) (s : ReplacementStrategy) (bs : BackingStore) {rs : List Request}
    (hlen : rs.length < 2 ^ 29)
    (hio : ∀ r ∈ rs, ∃ page, bs.getPage (r.page.val * pageSize) pageSize r.io = .ok page) :
    ∃ m m' resps resps', run Vmm1.VirtualMemoryManager.step (.initial bs) rs = .ok (m, resps) ∧
      run Vmm2.VirtualMemoryManager.readByte (.initial n s bs) rs = .ok (m', resps') ∧
      m.tlbhits = m'.tlbhits ∧ m.tlb.SamePages m'.tlb := by
  obtain ⟨m, m', resps, resps', hr, hr', h, _⟩ := run_pair (Q := fun _ _ => True)
    (R := fun pre m m' => TlbsAlike n s bs (3 * (pre.length : Int)) m m')
    (fun pre r post m m' hall h _ => by
      have hl : pre.length + 1 ≤ rs.length := by rw [hall]; simp
      obtain ⟨m₁', resp, hr, h'⟩ := h.readByte (r := r) (by omega) (hio r (by rw [hall]; simp))
      refine ⟨_, m₁', _, resp, rfl, hr, ?_, trivial⟩
      rw [show (3 * ((pre ++ [r]).length : Int)) = 3 * (pre.length : Int) + 3 by simp; omega]
      exact h')
    (by simpa using TlbsAlike.initial hn s bs) (along_true Vmm1.VirtualMemoryManager.step rs _)
  exact ⟨m, m', resps, resps', hr, hr', h.hits, h.same⟩

/-- Three pages in one frame: every fault but the first evicts, and the TLBs do not notice. -/
theorem tlb_hits_agree_one_frame : ∃ m m' resps resps',
    run Vmm1.VirtualMemoryManager.step (.initial ⟨some ⟨65536, fun _ => 7⟩⟩)
        [.served 0, .served 256, .served 1] = .ok (m, resps) ∧
      run Vmm2.VirtualMemoryManager.readByte (.initial 1 .lru ⟨some ⟨65536, fun _ => 7⟩⟩)
        [.served 0, .served 256, .served 1] = .ok (m', resps') ∧
      m.tlbhits = m'.tlbhits ∧ m.tlb.SamePages m'.tlb :=
  tlb_hits_agree (by decide) _ _ (by decide) (by simp [Request.served, BackingStore.getPage, BackingStore.lseek])

/-! ## The TLB as a cache of sixteen pages -/

namespace Vmm1.VirtualMemoryManager

/-- The pages entered so far are `ps`, in the order of the stamps `s`, and `hits` requests have hit. -/
structure Hitting (ps : List PageNumber) (s : PageNumber → Nat) (hits : Nat) (m : VirtualMemoryManager) : Prop where
  cached : Cached ps m
  order : EntryOrder numberOfTlbEntries ps s
  counted : m.tlbhits.toInt = hits

/-- A request either hits or enters its page in the place of the one entered first. -/
theorem Hitting.readByte {ps : List PageNumber} {s : PageNumber → Nat} {hits : Nat} {m : VirtualMemoryManager} {r : Request}
    (h : Hitting ps s hits m) (hlt : (hits : Int) + 1 < 2 ^ 31) (hg : ∃ page, m.getPage r = .ok page) :
    ∃ ps' s' b, Hitting ps' s' (hits + (!b).toNat) (m.readByte r).1 ∧ Served numberOfTlbEntries
      (held numberOfTlbEntries ps).toFinset s r.page (held numberOfTlbEntries ps').toFinset s' b := by
  have hcached := h.cached.readByte hg
  have hlook := h.cached.lookup_eq_none r.page
  have hcount := h.counted
  rcases looked hg with ⟨hl, _, hhits⟩ | ⟨hl, _, hhits⟩
  · -- a hit moves no stamp
    rw [if_neg hl] at hcached
    refine ⟨ps, s, false, ⟨hcached, h.order, ?_⟩, .hit (fun _ _ => rfl) fun _ => le_refl _⟩
    have hinc : (m.tlbhits + 1).toInt = m.tlbhits.toInt + 1 := toInt_incr (by omega)
    rw [hhits, hinc, hcount]
    rfl
  · rw [if_pos hl] at hcached
    obtain ⟨ho, hserved⟩ := h.cached.entered.served h.order (hlook.1 hl)
    refine ⟨ps ++ [r.page], _, true, ⟨hcached, ho, ?_⟩, hserved⟩
    rw [hhits, hcount]
    rfl

theorem Hitting.serving {bs : BackingStore} {rs : List Request}
    (hio : ∀ r ∈ rs, ∃ page, bs.getPage (r.page.val * pageSize) pageSize r.io = .ok page) :
    ∀ {ps : List PageNumber} {s : PageNumber → Nat} {hits : Nat} {m : VirtualMemoryManager}, Hitting ps s hits m →
      m.backingStore = bs → (hits : Int) + rs.length < 2 ^ 31 →
      ∃ m' resps ps' s' tr, run step m rs = .ok (m', resps) ∧ tr.map Prod.fst = rs.map (·.page) ∧
        Serving numberOfTlbEntries (held numberOfTlbEntries ps).toFinset s tr (held numberOfTlbEntries ps').toFinset s' ∧
        m'.tlbhits.toInt + loads tr = hits + rs.length := by
  induction rs with
  | nil =>
    intro ps s hits m h _ _
    exact ⟨m, [], ps, s, [], rfl, rfl, .nil, by simpa using h.counted⟩
  | cons r rs ih =>
    intro ps s hits m h hbs hlen
    obtain ⟨hr, hrs⟩ := List.forall_mem_cons.1 hio
    rw [List.length_cons] at hlen
    obtain ⟨ps₁, s₁, b, h₁, hserved⟩ := h.readByte (by omega) (by unfold getPage; rw [hbs]; exact hr)
    have hb : (!b).toNat + b.toNat = 1 := by cases b <;> rfl
    obtain ⟨m', resps, ps', s', tr, hrun, hpages, hserving, hcount⟩ :=
      ih hrs h₁ ((readByte_counted m r).1.trans hbs) (by push_cast; omega)
    refine ⟨m', _, ps', s', (r.page, b) :: tr, run_cons_ok.2 ⟨_, _, resps, rfl, hrun, rfl⟩, ?_, .cons hserved hserving, ?_⟩
    · rw [List.map_cons, List.map_cons, hpages]
    · rw [loads_cons, List.length_cons]
      push_cast at hcount ⊢
      omega

/-- The misses of the TLB against any other way to have at most `h ≤ 16` pages at hand when they are asked
for, at a cost of `c` pages brought in altogether: they are at most `16 / (17 - h)` times `c`, up to those of
one phase. -/
theorem tlb_competitive (bs : BackingStore) {rs : List Request} (hlen : rs.length < 2 ^ 31)
    (hio : ∀ r ∈ rs, ∃ page, bs.getPage (r.page.val * pageSize) pageSize r.io = .ok page) {h c : Nat} (hh : h ≤ 16)
    {M M' : Finset PageNumber} (hserves : Serves h M (rs.map (·.page)) c M') :
    ∃ m resps, run step (initial bs) rs = .ok (m, resps) ∧
      (17 - h) * (rs.length - m.tlbhits.toInt) ≤ 16 * (c + (17 - h)) := by
  have hinit : Hitting [] (fun _ => 0) 0 (initial bs) := ⟨Cached.initial bs, EntryOrder.nil _ _, rfl⟩
  obtain ⟨m, resps, ps', s', tr, hrun, hpages, hserving, hcount⟩ := Hitting.serving hio hinit rfl (by push_cast; omega)
  rw [← hpages] at hserves
  have hratio := hserving.conservative.loads_le (by decide) hh hserves
  have hmisses : (rs.length : Int) - m.tlbhits.toInt = loads tr := by omega
  refine ⟨m, resps, hrun, ?_⟩
  rw [hmisses]
  have hcast : ((numberOfTlbEntries - h + 1 : Nat) : Int) = 17 - (h : Int) := by
    show ((16 - h + 1 : Nat) : Int) = 17 - (h : Int)
    omega
  rw [← hcast]
  exact_mod_cast hratio

/-- One page, asked for twice. -/
theorem tlb_competitive_one_page : ∃ m resps,
    run step (initial ⟨some ⟨65536, fun _ => 7⟩⟩) [.served 0, .served 1] = .ok (m, resps) ∧
      (17 - ((1 : Nat) : Int)) * (([Request.served 0, Request.served 1].length : Nat) - m.tlbhits.toInt) ≤
        16 * (((1 : Nat) : Int) + (17 - ((1 : Nat) : Int))) := by
  have hserves : Serves 1 ∅ ([Request.served 0, Request.served 1].map (·.page)) 1 {(0 : PageNumber)} :=
    Serves.cons (M := ∅) (Finset.mem_singleton_self 0) (le_refl 1)
      (Serves.nil.stay (Finset.mem_singleton_self 0) (le_refl 1))
  exact tlb_competitive _ (by decide) (by simp [Request.served, BackingStore.getPage, BackingStore.lseek]) (by decide)
    hserves

end Vmm1.VirtualMemoryManager

end UnixSysProg
