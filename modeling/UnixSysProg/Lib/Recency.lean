/-
Recency stamps: a clock stamps an element each time it is used, so that among the members of a set
the smallest stamp belongs to the one used longest ago. Two stampings may differ in value and still
rank the members alike (`SameOrder`), and then they agree on the oldest; of two nested sets ranked
alike, the oldest of the larger one is either outside the smaller one or its oldest too, which is
the inclusion argument for stack algorithms.
-/
import Mathlib.Order.Lattice
import Mathlib.Logic.Function.Basic

namespace UnixSysProg.Lib

variable {P κ : Type} [LinearOrder κ]

/-- The members of `V` carry distinct stamps, all below the clock. -/
structure Stamped (V : P → Prop) (s : P → κ) (clock : κ) : Prop where
  below : ∀ p, V p → s p < clock
  inj : ∀ p q, V p → V q → s p = s q → p = q

/-- The member of `V` with the smallest stamp. -/
def Oldest (V : P → Prop) (s : P → κ) (p : P) : Prop := V p ∧ ∀ q, V q → s p ≤ s q

/-- Two stampings rank the members of `V` alike. -/
def SameOrder (V : P → Prop) (s t : P → κ) : Prop := ∀ p q, V p → V q → (s p < s q ↔ t p < t q)

variable {V W : P → Prop} {s t : P → κ} {c d : κ} {p q : P}

theorem Oldest.unique (h : Stamped V s c) (hp : Oldest V s p) (hq : Oldest V s q) : p = q :=
  h.inj p q hp.1 hq.1 (le_antisymm (hp.2 q hq.1) (hq.2 p hp.1))

theorem SameOrder.refl (V : P → Prop) (s : P → κ) : SameOrder V s s := fun _ _ _ _ => Iff.rfl

theorem SameOrder.symm (h : SameOrder V s t) : SameOrder V t s := fun p q hp hq => (h p q hp hq).symm

theorem SameOrder.oldest (h : SameOrder V s t) (hp : Oldest V s p) : Oldest V t p :=
  ⟨hp.1, fun q hq => not_lt.1 fun hlt => not_lt.2 (hp.2 q hq) ((h q p hq hp.1).2 hlt)⟩

/-- Inclusion: when `V ⊆ W` is ranked alike in both, the oldest of `W` is the oldest of `V` if it
is a member at all. -/
theorem Oldest.inclusion (hVW : ∀ p, V p → W p) (ho : SameOrder V s t) (hs : Stamped V s c)
    (hv : Oldest V s p) (hw : Oldest W t q) (hq : V q) : q = p := by
  have hq' : Oldest V t q := ⟨hq, fun r hr => hw.2 r (hVW r hr)⟩
  exact (ho.symm.oldest hq').unique hs hv

/-! ## The newest member -/

/-- `V'` stamped by `s'` is part of `V` stamped by `s`, with `p` made the newest. -/
def Newest (V : P → Prop) (s : P → κ) (V' : P → Prop) (s' : P → κ) (p : P) : Prop :=
  ∀ q, V' q → q ≠ p → V q ∧ s' q = s q ∧ s q < s' p

/-- Making the same element the newest keeps the order, also when one of the sets is the larger. -/
theorem SameOrder.newest {V' W' : P → Prop} {s' t' : P → κ} (h : SameOrder V s t) (hs : Newest V s V' s' p)
    (ht : Newest W t W' t' p) (hVW : ∀ q, V' q → W' q) : SameOrder V' s' t' := by
  intro q r hq hr
  by_cases hqp : q = p <;> by_cases hrp : r = p
  · rw [hqp, hrp]
    exact iff_of_false (lt_irrefl _) (lt_irrefl _)
  · obtain ⟨_, hs1, hs2⟩ := hs r hr hrp
    obtain ⟨_, ht1, ht2⟩ := ht r (hVW r hr) hrp
    rw [hqp, hs1, ht1]
    exact iff_of_false (lt_asymm hs2) (lt_asymm ht2)
  · obtain ⟨_, hs1, hs2⟩ := hs q hq hqp
    obtain ⟨_, ht1, ht2⟩ := ht q (hVW q hq) hqp
    rw [hrp, hs1, ht1]
    exact iff_of_true hs2 ht2
  · obtain ⟨hvq, hsq, _⟩ := hs q hq hqp
    obtain ⟨hvr, hsr, _⟩ := hs r hr hrp
    rw [hsq, hsr, (ht q (hVW q hq) hqp).2.1, (ht r (hVW r hr) hrp).2.1]
    exact h q r hvq hvr

/-! ## Touching an element -/

variable [DecidableEq P]

/-- Stamping `p` with the clock makes it the newest member. -/
theorem Stamped.touch (h : Stamped V s c) (hc : c < d) (p : P) (hW : ∀ q, W q → V q ∨ q = p) :
    Stamped W (Function.update s p c) d := by
  have hval : ∀ q, W q → q ≠ p → V q := fun q hq hne => (hW q hq).resolve_right hne
  constructor
  · intro q hq
    by_cases hqp : q = p
    · subst hqp; simpa using hc
    · rw [Function.update_of_ne hqp]
      exact lt_trans (h.below q (hval q hq hqp)) hc
  · intro q r hq hr he
    by_cases hqp : q = p <;> by_cases hrp : r = p
    · rw [hqp, hrp]
    · subst hqp
      rw [Function.update_self, Function.update_of_ne hrp] at he
      exact absurd he (h.below r (hval r hr hrp)).ne'
    · subst hrp
      rw [Function.update_self, Function.update_of_ne hqp] at he
      exact absurd he (h.below q (hval q hq hqp)).ne
    · rw [Function.update_of_ne hqp, Function.update_of_ne hrp] at he
      exact h.inj q r (hval q hq hqp) (hval r hr hrp) he

/-- Stamping an element outside the set changes nothing for its members. -/
theorem Stamped.touch_outside (h : Stamped V s c) (hc : c ≤ d) (hp : ¬ V p) :
    Stamped V (Function.update s p c) d := by
  have hne : ∀ q, V q → q ≠ p := fun q hq he => hp (he ▸ hq)
  constructor
  · intro q hq
    rw [Function.update_of_ne (hne q hq)]; exact lt_of_lt_of_le (h.below q hq) hc
  · intro q r hq hr he
    rw [Function.update_of_ne (hne q hq), Function.update_of_ne (hne r hr)] at he
    exact h.inj q r hq hr he

/-- Stamping an element outside the set in one of the two stampings keeps the order. -/
theorem SameOrder.touch_left (h : SameOrder V s t) (hp : ¬ V p) : SameOrder V (Function.update s p c) t := by
  intro q r hq hr
  have hne : ∀ q, V q → q ≠ p := fun q hq he => hp (he ▸ hq)
  rw [Function.update_of_ne (hne q hq), Function.update_of_ne (hne r hr)]
  exact h q r hq hr

end UnixSysProg.Lib
