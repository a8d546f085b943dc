/-
Tallies: a weight on the local states of finitely many threads, summed over the threads. Updating one
thread changes the sum by that thread's weights alone, so that an invariant about tallies is checked
on the thread that moves.
-/
import Mathlib.Data.Fintype.BigOperators
import Mathlib.Algebra.Order.BigOperators.Group.Finset

namespace UnixSysProg.Lib

variable {ι κ α β : Type} [Fintype ι] {w v : α → Nat} {f : ι → α} {i j : ι}

/-- The sum of the weights of all threads. -/
def tally (w : α → Nat) (f : ι → α) : Nat := ∑ i, w (f i)

theorem tally_eq_zero : tally w f = 0 ↔ ∀ i, w (f i) = 0 := by
  simp [tally, Finset.sum_eq_zero_iff]

theorem tally_mono (h : ∀ x, w x ≤ v x) : tally w f ≤ tally v f :=
  Finset.sum_le_sum fun i _ => h (f i)

theorem tally_add (w v : α → Nat) (f : ι → α) : tally (fun x => w x + v x) f = tally w f + tally v f :=
  Finset.sum_add_distrib

/-- Threads that all have the same weight. -/
theorem tally_const {c : Nat} (h : ∀ i, w (f i) = c) : tally w f = Fintype.card ι * c := by
  simp [tally, h]

/-- Threads of two kinds. -/
theorem tally_sum [Fintype κ] (w : β → Nat) (f : ι ⊕ κ → β) :
    tally w f = tally w (fun i => f (.inl i)) + tally w (fun k => f (.inr k)) :=
  Fintype.sum_sum_type _

theorem tally_le (h : ∀ x, w x ≤ 1) (f : ι → α) : tally w f ≤ Fintype.card ι := by
  simpa [tally] using tally_mono (f := f) (v := fun _ => 1) h

/-! ## One thread among the others -/

section

variable [DecidableEq ι]

theorem tally_split (w : α → Nat) (f : ι → α) (i : ι) :
    tally w f = w (f i) + ∑ j ∈ Finset.univ.erase i, w (f j) :=
  (Finset.add_sum_erase _ (fun j => w (f j)) (Finset.mem_univ i)).symm

theorem tally_update (w : α → Nat) (f : ι → α) (i : ι) (x : α) :
    tally w (Function.update f i x) + w (f i) = tally w f + w x := by
  have hrest : ∑ j ∈ Finset.univ.erase i, w (Function.update f i x j) = ∑ j ∈ Finset.univ.erase i, w (f j) :=
    Finset.sum_congr rfl fun j hj => by rw [Function.update_of_ne (Finset.ne_of_mem_erase hj)]
  rw [tally_split w (Function.update f i x) i, tally_split w f i, hrest, Function.update_self]
  omega

theorem le_tally (w : α → Nat) (f : ι → α) (i : ι) : w (f i) ≤ tally w f := by
  rw [tally_split w f i]
  exact Nat.le_add_right _ _

/-- Two different threads have their weights in the sum. -/
theorem add_le_tally (w : α → Nat) (f : ι → α) (h : i ≠ j) : w (f i) + w (f j) ≤ tally w f := by
  have hj : w (f j) ≤ ∑ k ∈ Finset.univ.erase i, w (f k) :=
    Finset.single_le_sum (f := fun k => w (f k)) (fun _ _ => Nat.zero_le _)
      (Finset.mem_erase.2 ⟨h.symm, Finset.mem_univ j⟩)
  rw [tally_split w f i]
  omega

theorem tally_le_one (h : w (f i) = 1) : tally w f ≤ 1 ↔ ∀ j, j ≠ i → w (f j) = 0 := by
  constructor
  · intro hle j hj
    have := add_le_tally w f hj.symm
    omega
  · intro hnone
    have hrest : ∑ j ∈ Finset.univ.erase i, w (f j) = 0 :=
      Finset.sum_eq_zero fun j hj => hnone j (Finset.ne_of_mem_erase hj)
    rw [tally_split w f i, h, hrest]

/-- When the sum is as large as it can be, every thread has its weight. -/
theorem tally_full (h : ∀ x, w x ≤ 1) (hn : Fintype.card ι ≤ tally w f) (i : ι) : w (f i) = 1 := by
  have hrest : ∑ j ∈ Finset.univ.erase i, w (f j) ≤ Fintype.card ι - 1 := by
    simpa using Finset.sum_le_card_nsmul (Finset.univ.erase i) (fun j => w (f j)) 1 fun j _ => h (f j)
  have hi := h (f i)
  have := Fintype.card_pos_iff.2 ⟨i⟩
  rw [tally_split w f i] at hn
  omega

end

end UnixSysProg.Lib
