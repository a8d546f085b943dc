/-
Integer division as a rounding. A number of units of `k` stands for a finer value when it is off from
it by less than a unit (`Near`); division that truncates toward zero gives such a number, and so does any
sum of whole units with it. Roundings are monotone across whole units, and along a chain of values the
rounded differences add up to the rounded total within a unit for each link.
-/
import Mathlib.Algebra.BigOperators.Group.List.Basic
import Mathlib.Algebra.Order.Group.Abs
import Mathlib.Tactic.Linarith

namespace UnixSysProg.Lib

variable {α : Type} {k p q a b : Int}

/-! ## One rounding -/

/-- `q` units of `k` stand for the value `a`. -/
def Near (k q a : Int) : Prop := |k * q - a| < k

theorem near_tdiv (hk : 0 < k) (a : Int) : Near k (a.tdiv k) a := by
  have h := Int.mul_tdiv_add_tmod a k
  have hlt := Int.tmod_lt_of_pos a hk
  have hgt := Int.lt_tmod_of_pos a hk
  unfold Near
  rw [abs_lt]
  constructor
  · linarith
  · linarith

theorem Near.add_units (h : Near k q a) (m : Int) : Near k (m + q) (k * m + a) := by
  unfold Near at *
  rwa [mul_add, add_sub_add_left_eq_sub]

/-- Two ways to stand for a value, one of which is off by some parts of a unit for each of `m` links, are
at most `m` units apart. -/
theorem Near.abs_sub_le (h : Near k q a) {m : Nat} (hp : |k * p - a| ≤ (k - 1) * m) : |p - q| ≤ m := by
  unfold Near at h
  have hk : 0 < k := lt_of_le_of_lt (abs_nonneg _) h
  rw [abs_lt] at h
  rw [abs_le] at hp ⊢
  constructor
  · have hlow : k * -(m + 1 : Int) < k * (p - q) := by linarith [hp.1, h.2]
    have := lt_of_mul_lt_mul_left hlow hk.le
    omega
  · have hhigh : k * (p - q) < k * (m + 1 : Int) := by linarith [hp.2, h.1]
    have := lt_of_mul_lt_mul_left hhigh hk.le
    omega

/-- Truncation is monotone across whole units: the remainders are on the same side of zero, or the units
make up for it. -/
theorem tdiv_le_add_tdiv (hk : 0 < k) {m : Int} (hm : 0 ≤ m) (h : a ≤ k * m + b) : a.tdiv k ≤ m + b.tdiv k := by
  have hmono : a.tdiv k ≤ (k * m + b).tdiv k := Int.tdiv_le_tdiv hk h
  have hsum := Int.mul_tdiv_add_tmod (k * m + b) k
  have hb := Int.mul_tdiv_add_tmod b k
  have hrest : b.tmod k - (k * m + b).tmod k < k := by
    rcases le_total 0 b with hpos | hneg
    · have hr := Int.tmod_nonneg k (add_nonneg (mul_nonneg hk.le hm) hpos)
      have := Int.tmod_lt_of_pos b hk
      linarith
    · have hr := Int.lt_tmod_of_pos (k * m + b) hk
      have := Int.tmod_nonneg k (neg_nonneg.2 hneg)
      rw [Int.neg_tmod] at this
      linarith
  have hlt : k * ((k * m + b).tdiv k) < k * (m + b.tdiv k + 1) := by linarith
  have := lt_of_mul_lt_mul_left hlt hk.le
  omega

/-! ## Chains -/

variable {d : α → α → Int} {f : α → Int}

theorem near_sum_zipWith (h : ∀ x y, Near k (d x y) (f x - f y)) : ∀ xs ys : List α,
    |k * (List.zipWith d xs ys).sum - (List.zipWith (fun x y => f x - f y) xs ys).sum| ≤
      (k - 1) * (min xs.length ys.length : Nat)
  | [], ys => by simp
  | x :: xs, [] => by simp
  | x :: xs, y :: ys => by
    have hxy := h x y
    have hrest := near_sum_zipWith h xs ys
    unfold Near at hxy
    simp only [List.zipWith_cons_cons, List.sum_cons, List.length_cons]
    rw [Nat.add_min_add_right, Nat.cast_add, Nat.cast_one]
    rw [abs_lt] at hxy
    rw [abs_le] at hrest ⊢
    constructor
    · linarith [hrest.1, Int.add_one_le_of_lt hxy.1]
    · linarith [hrest.2, Int.le_sub_one_of_lt hxy.2]

theorem zipWith_concat (d : α → α → Int) (x y₀ : α) : ∀ {xs ys : List α}, xs.length = ys.length →
    List.zipWith d (xs ++ [x]) (y₀ :: ys) = List.zipWith d xs (y₀ :: ys) ++ [d x (ys.getLastD y₀)]
  | [], [], _ => rfl
  | x' :: xs, y :: ys, h => by
    have hlen : xs.length = ys.length := by simpa using h
    have ih := zipWith_concat d x y hlen
    rw [List.cons_append, List.zipWith_cons_cons, ih, List.zipWith_cons_cons, List.cons_append, List.getLastD_cons]

theorem zipWith_concat_right (d : α → α → Int) {xs ys : List α} (h : xs.length = ys.length) (y : α) :
    List.zipWith d xs (ys ++ [y]) = List.zipWith d xs ys := by
  have happ : List.zipWith d (xs ++ []) (ys ++ [y]) = List.zipWith d xs ys ++ List.zipWith d [] [y] :=
    List.zipWith_append h
  simpa using happ

theorem sum_zipWith_chain (f : α → Int) : ∀ (x₀ : α) (xs : List α),
    (List.zipWith (fun x y => f x - f y) xs (x₀ :: xs)).sum = f (xs.getLastD x₀) - f x₀
  | x₀, [] => by simp
  | x₀, x :: xs => by
    rw [List.zipWith_cons_cons, List.sum_cons, sum_zipWith_chain f x xs, List.getLastD_cons]
    omega

theorem sum_zipWith_alternating (f : α → Int) : ∀ (x₀ : α) (xs ys : List α), xs.length = ys.length →
    (List.zipWith (fun x y => f x - f y) xs (x₀ :: ys)).sum + (List.zipWith (fun x y => f x - f y) ys xs).sum =
      f (ys.getLastD x₀) - f x₀
  | x₀, [], [], _ => by simp
  | x₀, x :: xs, y :: ys, h => by
    have ih := sum_zipWith_alternating f y xs ys (by simpa using h)
    simp only [List.zipWith_cons_cons, List.sum_cons]
    rw [List.getLastD_cons]
    linarith

/-- The rounded differences along a chain of two kinds of links are off from the whole difference by the
parts of a unit that each is off. -/
theorem near_sum_alternating (h : ∀ x y, Near k (d x y) (f x - f y)) (x₀ : α) {xs ys : List α}
    (hlen : xs.length = ys.length) :
    |k * ((List.zipWith d xs (x₀ :: ys)).sum + (List.zipWith d ys xs).sum) - (f (ys.getLastD x₀) - f x₀)| ≤
      (k - 1) * (xs.length + ys.length) := by
  have hthere := near_sum_zipWith h xs (x₀ :: ys)
  have hback := near_sum_zipWith h ys xs
  rw [List.length_cons, hlen, Nat.min_eq_left (Nat.le_succ _)] at hthere
  rw [hlen, Nat.min_self] at hback
  rw [← sum_zipWith_alternating f x₀ xs ys hlen, hlen]
  rw [abs_le] at hthere hback ⊢
  constructor
  · linarith [hthere.1, hback.1]
  · linarith [hthere.2, hback.2]

/-- The rounded differences along a chain add up to the rounded difference of its ends, within a unit for
each link. -/
theorem abs_sum_chain_sub_le (h : ∀ x y, Near k (d x y) (f x - f y)) (x₀ : α) (xs : List α) :
    |(List.zipWith d xs (x₀ :: xs)).sum - d (xs.getLastD x₀) x₀| ≤ xs.length := by
  refine (h (xs.getLastD x₀) x₀).abs_sub_le ?_
  have hsum := near_sum_zipWith h xs (x₀ :: xs)
  rw [sum_zipWith_chain] at hsum
  simpa using hsum

end UnixSysProg.Lib
