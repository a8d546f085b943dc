/-
Memory guarded by a lock. While no thread holds the lock the memory satisfies the resource invariant
`free`; a thread that holds it has, at every place of its code, its own assertion about the memory.
Exclusion makes this an invariant of any number of threads from one obligation about the thread that
takes a step.
-/
import Mathlib.Logic.Function.Basic

namespace UnixSysProg.Lib

/-- What is asserted of guarded memory: the places of the code inside the lock, the assertion at every
place, and the one outside. -/
structure Guard (α μ : Type) where
  inside : α → Prop
  asserts : α → μ → Prop
  free : μ → Prop
  asserts_outside : ∀ a m, ¬ inside a → (asserts a m ↔ free m)

namespace Guard

variable {ι α μ : Type} [DecidableEq ι] {G : Guard α μ} {threads : ι → α} {m m' : μ} {i : ι} {x : α}

/-- The memory satisfies the assertion of every thread inside, and is free when there is none. -/
structure Holds (G : Guard α μ) (threads : ι → α) (m : μ) : Prop where
  asserts : ∀ i, G.inside (threads i) → G.asserts (threads i) m
  free : (∀ i, ¬ G.inside (threads i)) → G.free m

theorem Holds.outside (h : G.Holds threads m) {j : ι} (hout : ∀ i, i ≠ j → ¬ G.inside (threads i)) :
    G.asserts (threads j) m := by
  by_cases hj : G.inside (threads j)
  · exact h.asserts j hj
  · refine (G.asserts_outside _ _ hj).2 (h.free fun i => ?_)
    by_cases hij : i = j
    · rw [hij]; exact hj
    · exact hout i hij

/-- The step of one thread: a thread that finds another one inside stays outside and leaves the memory
alone; else its step takes the assertion of its place to that of the next one. -/
theorem Holds.step (h : G.Holds threads m)
    (hexcl : ∀ j, j ≠ i → G.inside (threads j) → ¬ G.inside x ∧ m' = m)
    (hstep : (∀ j, j ≠ i → ¬ G.inside (threads j)) → G.asserts (threads i) m → G.asserts x m') :
    G.Holds (Function.update threads i x) m' := by
  by_cases hother : ∃ j, j ≠ i ∧ G.inside (threads j)
  · obtain ⟨k, hki, hk⟩ := hother
    obtain ⟨hx, rfl⟩ := hexcl k hki hk
    constructor
    · intro j hj
      by_cases hji : j = i
      · subst hji
        rw [Function.update_self] at hj
        exact absurd hj hx
      · rw [Function.update_of_ne hji] at hj ⊢
        exact h.asserts j hj
    · intro hall
      have := hall k
      rw [Function.update_of_ne hki] at this
      exact absurd hk this
  · have hothers : ∀ j, j ≠ i → ¬ G.inside (threads j) := fun j hji hj => hother ⟨j, hji, hj⟩
    have hx := hstep hothers (h.outside hothers)
    constructor
    · intro j hj
      by_cases hji : j = i
      · subst hji
        rw [Function.update_self]
        exact hx
      · rw [Function.update_of_ne hji] at hj
        exact absurd hj (hothers j hji)
    · intro hall
      have := hall i
      rw [Function.update_self] at this
      exact (G.asserts_outside _ _ this).1 hx

end Guard

end UnixSysProg.Lib
