/-
Caches with `k` places that make room by dropping the member stamped longest ago, whether the stamps are
those of the last use or those of the loading. Within a window of requests for at most `k` different
elements no element is loaded twice (`Conservative`), and that alone makes the loads of a cache competitive
with those of any other way to serve the same requests from `h ≤ k` places, one that knows all requests in
advance and loads what it likes included.
-/
import UnixSysProg.Lib.Recency
import UnixSysProg.Lib.Fifo
import Mathlib.Data.Finset.Card
import Mathlib.Data.Finset.Lattice.Lemmas
import Mathlib.Data.Finset.Insert
import Mathlib.Data.Finset.Dedup
import Mathlib.Tactic.Ring

namespace UnixSysProg.Lib

variable {P κ : Type}

/-! ## Traces -/

/-- The number of loads in a trace of requests, each with whether it loaded. -/
def loads (tr : List (P × Bool)) : Nat := tr.countP Prod.snd

@[simp] theorem loads_nil : loads ([] : List (P × Bool)) = 0 := rfl

@[simp] theorem loads_cons (p : P) (b : Bool) (tr : List (P × Bool)) : loads ((p, b) :: tr) = b.toNat + loads tr := by
  unfold loads
  cases b <;> simp [Nat.add_comm]

theorem loads_append (tr tr' : List (P × Bool)) : loads (tr ++ tr') = loads tr + loads tr' := List.countP_append

variable [DecidableEq P]

/-- The elements that a trace requests. -/
def requested (tr : List (P × Bool)) : Finset P := (tr.map Prod.fst).toFinset

@[simp] theorem requested_nil : requested ([] : List (P × Bool)) = ∅ := rfl

@[simp] theorem requested_cons (p : P) (b : Bool) (tr : List (P × Bool)) :
    requested ((p, b) :: tr) = insert p (requested tr) := by
  unfold requested
  rw [List.map_cons, List.toFinset_cons]

variable [LinearOrder κ]

/-! ## One request -/

/-- A request for `p` to a cache with `k` places that holds `V`, stamped by `s`: what it holds afterwards,
the stamps, and whether `p` was loaded. A hit may find `p` outside `V`, by some way around the cache. -/
inductive Served (k : Nat) (V : Finset P) (s : P → κ) (p : P) : Finset P → (P → κ) → Bool → Prop
  | hit {s' : P → κ} : (∀ q, q ≠ p → s' q = s q) → (p ∈ V → s p ≤ s' p) → Served k V s p V s' false
  | load {s' : P → κ} : p ∉ V → Newest (· ∈ V) s (· ∈ insert p V) s' p → Served k V s p (insert p V) s' true
  | replace {v : P} {s' : P → κ} : p ∉ V → k ≤ V.card → Oldest (· ∈ V) s v →
      Newest (· ∈ V) s (· ∈ insert p (V.erase v)) s' p → Served k V s p (insert p (V.erase v)) s' true

/-- The requests of a trace, in their order. -/
inductive Serving (k : Nat) : Finset P → (P → κ) → List (P × Bool) → Finset P → (P → κ) → Prop
  | nil {V : Finset P} {s : P → κ} : Serving k V s [] V s
  | cons {V V₁ V' : Finset P} {s s₁ s' : P → κ} {p : P} {b : Bool} {tr : List (P × Bool)} :
      Served k V s p V₁ s₁ b → Serving k V₁ s₁ tr V' s' → Serving k V s ((p, b) :: tr) V' s'

theorem Serving.append {k : Nat} {V V' : Finset P} {s s' : P → κ} : ∀ {tr tr' : List (P × Bool)},
    Serving k V s (tr ++ tr') V' s' → ∃ V₁ s₁, Serving k V s tr V₁ s₁ ∧ Serving k V₁ s₁ tr' V' s' := by
  intro tr
  induction tr generalizing V s with
  | nil =>
    intro tr' h
    exact ⟨V, s, .nil, h⟩
  | cons x tr ih =>
    intro tr' h
    rw [List.cons_append] at h
    cases h with
    | cons hx hrest =>
      obtain ⟨V₁, s₁, h1, h2⟩ := ih hrest
      exact ⟨V₁, s₁, .cons hx h1, h2⟩

/-! ## Windows -/

/-- After the requests for `D` in a window, of which those for `L` loaded: what was loaded is still there,
and newer than every member that the window has no request for. -/
structure Kept (D L V : Finset P) (s : P → κ) : Prop where
  subset : L ⊆ D
  newer : ∀ f ∈ L, f ∈ V ∧ ∀ q ∈ V, q ∉ D → s q < s f

variable {k h : Nat} {V V' D L : Finset P} {s s' : P → κ} {p : P}

omit [DecidableEq P] in
theorem Kept.empty (V : Finset P) (s : P → κ) : Kept ∅ ∅ V s := by
  constructor
  · exact Finset.Subset.refl _
  · intro f hf
    cases hf

/-- A request that does not load. -/
theorem Kept.hit (hk : Kept D L V s) (hs : ∀ q, q ≠ p → s' q = s q) (hp : p ∈ V → s p ≤ s' p) :
    Kept (insert p D) L V s' := by
  constructor
  · exact hk.subset.trans (Finset.subset_insert p D)
  · intro f hf
    obtain ⟨hfV, hnewer⟩ := hk.newer f hf
    refine ⟨hfV, fun q hq hqD => ?_⟩
    rw [Finset.mem_insert, not_or] at hqD
    have hlt := hnewer q hq hqD.2
    rw [hs q hqD.1]
    by_cases hfp : f = p
    · subst hfp
      exact lt_of_lt_of_le hlt (hp hfV)
    · rwa [hs f hfp]

/-- A request that loads, and does not drop what was loaded in the window. -/
theorem Kept.load (hk : Kept D L V s) (hL : L ⊆ V') (hpV : p ∈ V') (hp : p ∉ L)
    (hnew : Newest (· ∈ V) s (· ∈ V') s' p) : Kept (insert p D) (insert p L) V' s' := by
  constructor
  · exact Finset.insert_subset_insert p hk.subset
  · intro f hf
    rcases Finset.mem_insert.1 hf with rfl | hfL
    · refine ⟨hpV, fun q hq hqD => ?_⟩
      rw [Finset.mem_insert, not_or] at hqD
      obtain ⟨_, heq, hlt⟩ := hnew q hq hqD.1
      rwa [heq]
    · refine ⟨hL hfL, fun q hq hqD => ?_⟩
      rw [Finset.mem_insert, not_or] at hqD
      obtain ⟨hqV, heq, _⟩ := hnew q hq hqD.1
      have hfp : f ≠ p := fun he => hp (he ▸ hfL)
      rw [heq, (hnew f (hL hfL) hfp).2.1]
      exact (hk.newer f hfL).2 q hqV hqD.2

/-- The member that makes room was not loaded in the window: it would be older than nothing outside the
window, so that with the new element the window would have more than `k`. -/
theorem Kept.victim {v : P} (hk : Kept D L V s) (hD : (insert p D).card ≤ k) (hV : k ≤ V.card) (hp : p ∉ V)
    (hv : Oldest (· ∈ V) s v) : v ∉ L := by
  intro hvL
  have hsub : insert p V ⊆ insert p D := by
    refine Finset.insert_subset_insert p fun q hq => ?_
    by_contra hqD
    exact absurd ((hk.newer v hvL).2 q hq hqD) (not_lt.2 (hv.2 q hq))
  have hcard := Finset.card_le_card hsub
  rw [Finset.card_insert_of_notMem hp] at hcard
  omega

/-- One request of a window: an element that is loaded was not loaded in it before. -/
theorem Kept.served {b : Bool} (hk : Kept D L V s) (hs : Served k V s p V' s' b) (hD : (insert p D).card ≤ k) :
    ∃ L', Kept (insert p D) L' V' s' ∧ L'.card = b.toNat + L.card := by
  have hnotin : p ∉ V → p ∉ L := fun hp hpL => hp (hk.newer p hpL).1
  cases hs with
  | hit hsame hp => exact ⟨L, hk.hit hsame hp, (Nat.zero_add _).symm⟩
  | load hp hnew =>
    refine ⟨insert p L, hk.load ?_ (Finset.mem_insert_self p V) (hnotin hp) hnew, ?_⟩
    · intro f hf
      exact Finset.mem_insert_of_mem (hk.newer f hf).1
    · rw [Finset.card_insert_of_notMem (hnotin hp), Bool.toNat_true, Nat.add_comm]
  | @replace v _ hp hfull hv hnew =>
    have hvL := hk.victim hD hfull hp hv
    refine ⟨insert p L, hk.load ?_ (Finset.mem_insert_self p _) (hnotin hp) hnew, ?_⟩
    · intro f hf
      have hne : f ≠ v := fun he => hvL (he ▸ hf)
      exact Finset.mem_insert_of_mem (Finset.mem_erase.2 ⟨hne, (hk.newer f hf).1⟩)
    · rw [Finset.card_insert_of_notMem (hnotin hp), Bool.toNat_true, Nat.add_comm]

theorem Kept.serving {tr : List (P × Bool)} (hs : Serving k V s tr V' s') : ∀ {D L : Finset P}, Kept D L V s →
    (D ∪ requested tr).card ≤ k → ∃ L', Kept (D ∪ requested tr) L' V' s' ∧ L'.card = L.card + loads tr := by
  induction hs with
  | nil =>
    intro D L hk _
    exact ⟨L, by simpa using hk, rfl⟩
  | @cons V V₁ V' s s₁ s' p b tr hp _ ih =>
    intro D L hk hcard
    have hassoc : insert p D ∪ requested tr = D ∪ requested ((p, b) :: tr) := by
      rw [requested_cons, Finset.insert_union, Finset.union_insert]
    rw [← hassoc] at hcard ⊢
    obtain ⟨L₁, hk₁, hcard₁⟩ := hk.served hp ((Finset.card_le_card Finset.subset_union_left).trans hcard)
    obtain ⟨L', hk', hcard'⟩ := ih hk₁ hcard
    refine ⟨L', hk', ?_⟩
    rw [hcard', hcard₁, loads_cons]
    omega

/-- A window of requests for at most `k` elements loads at most as many as it requests. -/
theorem Serving.window {tr : List (P × Bool)} (hs : Serving k V s tr V' s') (htr : (requested tr).card ≤ k) :
    loads tr ≤ (requested tr).card := by
  obtain ⟨L, hk, hL⟩ := Kept.serving hs (Kept.empty V s) (by rwa [Finset.empty_union])
  rw [Finset.empty_union] at hk
  have hle := Finset.card_le_card hk.subset
  rw [hL, Finset.card_empty, Nat.zero_add] at hle
  exact hle

/-- In every window of requests for at most `k` elements there are at most `k` loads. -/
def Conservative (k : Nat) (tr : List (P × Bool)) : Prop :=
  ∀ w, w <:+: tr → (requested w).card ≤ k → loads w ≤ k

theorem Conservative.of_isInfix {tr w : List (P × Bool)} (hc : Conservative k tr) (hw : w <:+: tr) : Conservative k w :=
  fun x hx => hc x (hx.trans hw)

theorem Serving.conservative {tr : List (P × Bool)} (hs : Serving k V s tr V' s') : Conservative k tr := by
  rintro w ⟨pre, post, rfl⟩ hw
  rw [List.append_assoc] at hs
  obtain ⟨V₁, s₁, _, h1⟩ := hs.append
  obtain ⟨V₂, s₂, h2, _⟩ := h1.append
  exact (h2.window hw).trans hw

/-! ## First-in-first-out caches -/

/-- What is held is stamped in the order in which it was entered. -/
structure EntryOrder (n : Nat) (log : List P) (s : P → Nat) : Prop where
  sorted : (held n log).Pairwise fun p q => s p < s q
  below : ∀ p ∈ held n log, s p < log.length

omit [DecidableEq P] in
theorem EntryOrder.nil (n : Nat) (s : P → Nat) : EntryOrder n [] s := by
  constructor <;> simp [held]

theorem EntryOrder.enter {n : Nat} {log : List P} {s : P → Nat} (ho : EntryOrder n log s) {kept : List P}
    (hsub : kept.Sublist (held n log)) (hp : p ∉ held n log) (hheld : held n (log ++ [p]) = kept ++ [p]) :
    EntryOrder n (log ++ [p]) (Function.update s p log.length) ∧
      Newest (· ∈ held n log) s (· ∈ kept ++ [p]) (Function.update s p log.length) p := by
  have hold : ∀ q ∈ kept, Function.update s p log.length q = s q := by
    intro q hq
    have hqp : q ≠ p := fun he => hp (he ▸ hsub.subset hq)
    exact Function.update_of_ne hqp ..
  have hnew : Function.update s p log.length p = log.length := Function.update_self ..
  refine ⟨⟨?_, ?_⟩, ?_⟩
  · rw [hheld]
    refine List.pairwise_append.2 ⟨?_, List.pairwise_singleton _ _, ?_⟩
    · refine (ho.sorted.sublist hsub).imp_of_mem fun {q q'} hq hq' hlt => ?_
      rwa [hold q hq, hold q' hq']
    · intro q hq q' hq'
      obtain rfl := List.mem_singleton.1 hq'
      rw [hold q hq, hnew]
      exact ho.below q (hsub.subset hq)
  · intro q hq
    rw [hheld, List.mem_append, List.mem_singleton] at hq
    rw [List.length_append, List.length_singleton]
    rcases hq with hq | rfl
    · rw [hold q hq]
      exact Nat.lt_succ_of_lt (ho.below q (hsub.subset hq))
    · rw [hnew]
      exact Nat.lt_succ_self _
  · intro q hq hqp
    have hqk : q ∈ kept := (List.mem_append.1 hq).resolve_right fun hq' => hqp (List.mem_singleton.1 hq')
    rw [hold q hqk, hnew]
    exact ⟨hsub.subset hqk, rfl, ho.below q (hsub.subset hqk)⟩

/-- Entering what is not held is a request that loads, and drops what was entered first. -/
theorem Entered.served {n : Nat} {log : List P} {s : P → Nat} (he : Entered (n + 1) log) (ho : EntryOrder (n + 1) log s)
    (hp : p ∉ held (n + 1) log) :
    EntryOrder (n + 1) (log ++ [p]) (Function.update s p log.length) ∧
      Served (n + 1) (held (n + 1) log).toFinset s p (held (n + 1) (log ++ [p])).toFinset
        (Function.update s p log.length) true := by
  have hp' : p ∉ (held (n + 1) log).toFinset := by rwa [List.mem_toFinset]
  by_cases hroom : log.length < n + 1
  · have hheld := held_room (a := p) hroom
    obtain ⟨ho', hnew⟩ := ho.enter (List.Sublist.refl _) hp hheld
    have hfin : (held (n + 1) (log ++ [p])).toFinset = insert p (held (n + 1) log).toFinset := by
      rw [hheld]
      ext q
      simp
    refine ⟨ho', ?_⟩
    rw [hfin]
    refine .load hp' ?_
    rw [← hfin, hheld]
    simpa only [List.mem_toFinset] using hnew
  · obtain ⟨b, rest, _, hheld, hnext⟩ := held_full (a := p) (not_lt.1 hroom)
    have hnodup := he.nodup
    have hsorted := ho.sorted
    obtain ⟨ho', hnew⟩ := ho.enter (by rw [hheld]; exact List.sublist_cons_self b rest) hp hnext
    have hcard : (held (n + 1) log).toFinset.card = n + 1 := by
      rw [List.toFinset_card_of_nodup hnodup, held_length (not_lt.1 hroom)]
    rw [hheld] at hnodup hsorted
    have hfin : (held (n + 1) (log ++ [p])).toFinset = insert p ((held (n + 1) log).toFinset.erase b) := by
      rw [hnext, hheld, List.toFinset_cons, Finset.erase_insert (by simpa using (List.nodup_cons.1 hnodup).1)]
      ext q
      simp
    refine ⟨ho', ?_⟩
    rw [hfin]
    refine .replace (v := b) hp' hcard.ge ?_ ?_
    · constructor
      · rw [hheld]
        simp
      · intro q hq
        rw [List.mem_toFinset, hheld] at hq
        rcases List.mem_cons.1 hq with rfl | hq
        · exact le_refl _
        · exact (List.rel_of_pairwise_cons hsorted hq).le
    · rw [← hfin, hnext]
      simpa only [List.mem_toFinset] using hnew

/-! ## Any other way to serve the requests -/

/-- The requests are served from `h` places: each element is there when its request is served, and what
comes in costs one for each element, whether it was asked for or not. -/
inductive Serves (h : Nat) : Finset P → List P → Nat → Finset P → Prop
  | nil {M : Finset P} : Serves h M [] 0 M
  | cons {M M₁ M' : Finset P} {p : P} {ps : List P} {c : Nat} : p ∈ M₁ → M₁.card ≤ h → Serves h M₁ ps c M' →
      Serves h M (p :: ps) ((M₁ \ M).card + c) M'

/-- A request for what is there costs nothing. -/
theorem Serves.stay {M M' : Finset P} {ps : List P} {c : Nat} (hp : p ∈ M) (hM : M.card ≤ h) (hs : Serves h M ps c M') :
    Serves h M (p :: ps) c M' := by
  have hstay := Serves.cons (M := M) hp hM hs
  rwa [Finset.sdiff_self, Finset.card_empty, Nat.zero_add] at hstay

theorem Serves.append {M M' : Finset P} : ∀ {ps qs : List P} {c : Nat}, Serves h M (ps ++ qs) c M' →
    ∃ M₁ c₁ c₂, Serves h M ps c₁ M₁ ∧ Serves h M₁ qs c₂ M' ∧ c = c₁ + c₂ := by
  intro ps
  induction ps generalizing M with
  | nil =>
    intro qs c hs
    exact ⟨M, 0, c, .nil, hs, (Nat.zero_add c).symm⟩
  | cons p ps ih =>
    intro qs c hs
    rw [List.cons_append] at hs
    cases hs with
    | cons hp hcard hrest =>
      obtain ⟨M₁, c₁, c₂, h1, h2, rfl⟩ := ih hrest
      exact ⟨M₁, _, c₂, .cons hp hcard h1, h2, (Nat.add_assoc _ _ _).symm⟩

/-- What is requested and was not there at the beginning has come in. -/
theorem Serves.cost {M M' : Finset P} {ps : List P} {c : Nat} (hs : Serves h M ps c M') :
    (ps.toFinset \ M).card ≤ c := by
  induction hs with
  | nil => simp
  | @cons M M₁ M' p ps c hp _ _ ih =>
    have hsub : (p :: ps).toFinset \ M ⊆ (M₁ \ M) ∪ (ps.toFinset \ M₁) := by
      intro q hq
      rw [Finset.mem_sdiff, List.toFinset_cons, Finset.mem_insert] at hq
      rw [Finset.mem_union, Finset.mem_sdiff, Finset.mem_sdiff]
      by_cases hqM : q ∈ M₁
      · exact .inl ⟨hqM, hq.2⟩
      · refine .inr ⟨hq.1.resolve_left ?_, hqM⟩
        rintro rfl
        exact hqM hp
    calc ((p :: ps).toFinset \ M).card ≤ ((M₁ \ M) ∪ (ps.toFinset \ M₁)).card := Finset.card_le_card hsub
      _ ≤ (M₁ \ M).card + (ps.toFinset \ M₁).card := Finset.card_union_le _ _
      _ ≤ (M₁ \ M).card + c := Nat.add_le_add_left ih _

/-! ## Phases -/

/-- A list has a longest prefix with a property of the empty list. -/
theorem exists_longest_prefix {α : Type} {C : List α → Prop} (h0 : C []) (xs : List α) :
    ∃ w rest, xs = w ++ rest ∧ C w ∧ ∀ x rest', rest = x :: rest' → ¬ C (w ++ [x]) := by
  induction xs generalizing C with
  | nil => exact ⟨[], [], rfl, h0, fun x rest' he => by cases he⟩
  | cons x xs ih =>
    by_cases hx : C [x]
    · obtain ⟨w, rest, rfl, hw, hmax⟩ := ih (C := fun l => C (x :: l)) hx
      exact ⟨x :: w, rest, rfl, hw, hmax⟩
    · refine ⟨[], x :: xs, rfl, h0, ?_⟩
      rintro y rest' he
      cases he
      exact hx

/-- From the first request of a phase on: the other cache has just served it. Each phase after it costs
the other cache at least `k - h + 1`, and this one at most `k`. -/
theorem Conservative.phases (hk : 1 ≤ k) (hh : h ≤ k) : ∀ {tr : List (P × Bool)} {p : P} {b : Bool} {M M' : Finset P}
    {c : Nat}, Conservative k ((p, b) :: tr) → p ∈ M → M.card ≤ h → Serves h M (tr.map Prod.fst) c M' →
      (k - h + 1) * loads ((p, b) :: tr) ≤ k * (c + (k - h + 1)) := by
  intro tr
  induction hn : tr.length using Nat.strongRecOn generalizing tr with
  | _ n ih =>
    intro p b M M' c hc hp hM hs
    obtain ⟨w, rest, rfl, hw, hmax⟩ := exists_longest_prefix (C := fun w => (requested ((p, b) :: w)).card ≤ k)
      (by simpa using hk) tr
    have hphase : loads ((p, b) :: w) ≤ k := hc _ (List.prefix_append ((p, b) :: w) rest).isInfix hw
    cases rest with
    | nil =>
      rw [List.append_nil]
      calc (k - h + 1) * loads ((p, b) :: w) ≤ (k - h + 1) * k := Nat.mul_le_mul_left _ hphase
        _ = k * (k - h + 1) := Nat.mul_comm _ _
        _ ≤ k * (c + (k - h + 1)) := Nat.mul_le_mul_left _ (Nat.le_add_left _ _)
    | cons x rest =>
      obtain ⟨q, b'⟩ := x
      -- the other cache has served `w` and the first request of the next phase
      rw [List.map_append, List.map_cons, ← List.singleton_append, ← List.append_assoc] at hs
      obtain ⟨M₁, c₁, c₂, h1, h2, rfl⟩ := hs.append
      have hcost : k - h + 1 ≤ c₁ := by
        have hlarge := not_le.1 (hmax (q, b') rest rfl)
        have hreq : ((w.map Prod.fst ++ [q]).toFinset \ M).card ≤ c₁ := h1.cost
        have hall : requested ((p, b) :: (w ++ [(q, b')])) ⊆ M ∪ ((w.map Prod.fst ++ [q]).toFinset \ M) := by
          intro y hy
          rw [requested_cons, Finset.mem_insert] at hy
          rw [Finset.union_sdiff_self_eq_union, Finset.mem_union]
          rcases hy with rfl | hy
          · exact .inl hp
          · exact .inr (by simpa [requested] using hy)
        have hcard := (Finset.card_le_card hall).trans (Finset.card_union_le _ _)
        omega
      obtain ⟨hq, hM₁⟩ : q ∈ M₁ ∧ M₁.card ≤ h := by
        obtain ⟨M₂, _, _, _, hlast, _⟩ := h1.append
        cases hlast with
        | cons hq hcard hnil =>
          cases hnil
          exact ⟨hq, hcard⟩
      have hnext := ih rest.length (by rw [← hn]; simp; omega) rfl
        (hc.of_isInfix (List.suffix_append ((p, b) :: w) ((q, b') :: rest)).isInfix) hq hM₁ h2
      calc (k - h + 1) * loads ((p, b) :: (w ++ (q, b') :: rest))
          = (k - h + 1) * loads ((p, b) :: w) + (k - h + 1) * loads ((q, b') :: rest) := by
            rw [← List.cons_append, loads_append, Nat.mul_add]
        _ ≤ (k - h + 1) * k + k * (c₂ + (k - h + 1)) := Nat.add_le_add (Nat.mul_le_mul_left _ hphase) hnext
        _ = k * (k - h + 1) + k * (c₂ + (k - h + 1)) := by rw [Nat.mul_comm]
        _ ≤ k * c₁ + k * (c₂ + (k - h + 1)) := Nat.add_le_add_right (Nat.mul_le_mul_left k hcost) _
        _ = k * (c₁ + c₂ + (k - h + 1)) := by ring

/-- A conservative cache with `k` places is competitive with any other that has `h ≤ k`: up to what one
phase costs, its loads are at most `k / (k - h + 1)` times those of the other. -/
theorem Conservative.loads_le {tr : List (P × Bool)} {M M' : Finset P} {c : Nat} (hc : Conservative k tr)
    (hk : 1 ≤ k) (hh : h ≤ k) (hs : Serves h M (tr.map Prod.fst) c M') :
    (k - h + 1) * loads tr ≤ k * (c + (k - h + 1)) := by
  cases tr with
  | nil => simp
  | cons x tr =>
    obtain ⟨p, b⟩ := x
    rw [List.map_cons] at hs
    cases hs with
    | cons hp hcard hrest =>
      refine (hc.phases hk hh hp hcard hrest).trans (Nat.mul_le_mul_left k ?_)
      omega

end UnixSysProg.Lib
