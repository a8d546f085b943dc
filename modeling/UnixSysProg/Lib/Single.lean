/-
The ratio of two counts in single precision: both are rounded to 24 binary places, and so is their quotient, each
time to the nearest number and of two to the even one. Each rounding is off by at most a part of 2^24, so that the
ratio, printed with three places after the point, is off by less than a thousandth.
-/
import UnixSysProg.Lib.Decimal
import UnixSysProg.Lib.Rounding
import Mathlib.Data.Int.Log
import Mathlib.Data.Rat.Floor
import Mathlib.Tactic.FieldSimp
import Mathlib.Tactic.Positivity
import Mathlib.Tactic.NormNum
import Mathlib.Tactic.Ring

namespace UnixSysProg.Lib

variable {r x y z δ ε : ℚ}

/-! ## Relative errors -/

/-- `y` stands for `x`, off by no more than the part `ε` of it. -/
def Within (ε x y : ℚ) : Prop := |y - x| ≤ ε * x

theorem Within.trans (h : Within δ x y) (h' : Within ε y z) (hε : 0 ≤ ε) : Within (δ + ε * (1 + δ)) x z := by
  unfold Within at *
  have hy : y ≤ (1 + δ) * x := by linarith [(abs_le.1 h).2]
  calc |z - x| ≤ |z - y| + |y - x| := abs_sub_le z y x
    _ ≤ ε * y + δ * x := add_le_add h' h
    _ ≤ ε * ((1 + δ) * x) + δ * x := by gcongr
    _ = (δ + ε * (1 + δ)) * x := by ring

/-- The errors of a quotient add up, nearly. -/
theorem Within.div {a a' b b' : ℚ} (ha : Within ε a a') (hb : Within ε b b') (hε : 0 ≤ ε) (hε' : ε ≤ 1 / 4) (ha₀ : 0 ≤ a) (hb₀ : 0 < b) :
    Within (3 * ε) (a / b) (a' / b') := by
  unfold Within at *
  obtain ⟨halo, hahi⟩ := abs_le.1 ha
  obtain ⟨hblo, hbhi⟩ := abs_le.1 hb
  have hb' : 3 / 4 * b ≤ b' := by nlinarith
  have hpos : 0 < b' := by linarith
  have hcross : |a' * b - a * b'| ≤ 2 * ε * (a * b) := by
    have heq : a' * b - a * b' = (a' - a) * b - a * (b' - b) := by ring
    calc |a' * b - a * b'| ≤ |(a' - a) * b| + |a * (b' - b)| := by rw [heq]; exact abs_sub _ _
      _ = |a' - a| * b + a * |b' - b| := by rw [abs_mul, abs_mul, abs_of_pos hb₀, abs_of_nonneg ha₀]
      _ ≤ ε * a * b + a * (ε * b) := by gcongr
      _ = 2 * ε * (a * b) := by ring
  have hdiff : a' / b' - a / b = (a' * b - a * b') / (b' * b) := by
    field_simp
  rw [hdiff, abs_div, abs_of_pos (mul_pos hpos hb₀), div_le_iff₀ (mul_pos hpos hb₀)]
  calc |a' * b - a * b'| ≤ 2 * ε * (a * b) := hcross
    _ ≤ 3 * ε * (a * (3 / 4 * b)) := by nlinarith [mul_nonneg hε (mul_nonneg ha₀ hb₀.le)]
    _ ≤ 3 * ε * (a * b') := by gcongr
    _ = 3 * ε * (a / b) * (b' * b) := by field_simp

/-! ## Rounding -/

/-- The nearest integer, and of two the even one. -/
def halfEven (r : ℚ) : Int := if Even ⌈r - 1 / 2⌉ then ⌈r - 1 / 2⌉ else ⌊r + 1 / 2⌋

theorem abs_halfEven_sub_le (r : ℚ) : |halfEven r - r| ≤ 1 / 2 := by
  rw [abs_le]
  unfold halfEven
  split
  · have hle := Int.le_ceil (r - 1 / 2)
    have hlt := Int.ceil_lt_add_one (r - 1 / 2)
    constructor <;> linarith
  · have hle := Int.floor_le (r + 1 / 2)
    have hlt := Int.lt_floor_add_one (r + 1 / 2)
    constructor <;> linarith

theorem halfEven_zero : halfEven 0 = 0 := by decide +kernel

/-- The unit in the last of the 24 binary places of a number. -/
def ulp (r : ℚ) : ℚ := 2 ^ (Int.log 2 r - 23)

theorem ulp_pos (r : ℚ) : 0 < ulp r := zpow_pos two_pos _

theorem ulp_le (hr : 0 < r) : 8388608 * ulp r ≤ r := by
  have hlog := Int.zpow_log_le_self (b := 2) (r := r) (by decide) hr
  have hpow : 8388608 * ulp r = 2 ^ Int.log 2 r := by
    unfold ulp
    rw [zpow_sub₀ two_ne_zero]
    norm_num
    ring
  rw [hpow]
  exact_mod_cast hlog

/-- The nearest number with 24 binary places; the bounds of the exponent are far from the numbers here. -/
def nearest (r : ℚ) : ℚ := halfEven (r / ulp r) * ulp r

theorem within_nearest (hr : 0 ≤ r) : Within (1 / 16777216) r (nearest r) := by
  unfold Within nearest
  rcases hr.eq_or_lt with rfl | hpos
  · rw [zero_div, halfEven_zero]
    norm_num
  have hulp := ulp_pos r
  have heq : halfEven (r / ulp r) * ulp r - r = (halfEven (r / ulp r) - r / ulp r) * ulp r := by
    field_simp
  rw [heq, abs_mul, abs_of_pos hulp]
  calc |halfEven (r / ulp r) - r / ulp r| * ulp r ≤ 1 / 2 * ulp r := by gcongr; exact abs_halfEven_sub_le _
    _ ≤ 1 / 16777216 * r := by linarith [ulp_le hpos]

/-! ## Ratios -/

/-- A value of type `float`; zeros have a sign too. -/
inductive Single
  | nan
  | infinite (negative : Bool)
  | finite (negative : Bool) (magnitude : ℚ)

/-- `(float)a / b`, with both rounded to single precision. -/
def Single.ratio (a b : Int) : Single :=
  if b = 0 then if a = 0 then .nan else .infinite (a < 0)
  else .finite ((a < 0) ≠ (b < 0)) (nearest (nearest a.natAbs / nearest b.natAbs))

/-- The value of a ratio stands for it. -/
theorem within_ratio (a : Nat) {b : Nat} (hb : 0 < b) :
    Within (1 / 4000000) (a / b) (nearest (nearest a / nearest b)) := by
  have ha₀ : (0 : ℚ) ≤ a := Nat.cast_nonneg a
  have hb₀ : (0 : ℚ) < b := Nat.cast_pos.2 hb
  have hdiv := (within_nearest ha₀).div (within_nearest hb₀.le) (by norm_num) (by norm_num) ha₀ hb₀
  have hnonneg : 0 ≤ nearest a / nearest b := by
    have hx : (0 : ℚ) ≤ a / b := by positivity
    have := (abs_le.1 hdiv).1
    linarith
  have h := hdiv.trans (within_nearest hnonneg) (by norm_num)
  have hx : (0 : ℚ) ≤ a / b := by positivity
  unfold Within at *
  refine h.trans ?_
  gcongr
  norm_num

/-! ## In decimal -/

/-- `%.3f` of a number of thousandths. -/
def thousandths (t : Nat) : List Char := Nat.toDigits 10 (t / 1000) ++ '.' :: padded 3 (t % 1000)

/-- `%.3f`; the quotient of two zeros has its sign set, as the processor makes it. -/
def Single.fixed : Single → List Char
  | .nan => "-nan".toList
  | .infinite negative => (if negative then ['-'] else []) ++ "inf".toList
  | .finite negative magnitude =>
    (if negative then ['-'] else []) ++ thousandths (halfEven (1000 * magnitude)).toNat

/-- A ratio is printed with an error of less than a thousandth. -/
theorem fixed_ratio {a b : Nat} (hab : a ≤ b) (hb : 0 < b) :
    ∃ t : Nat, (Single.ratio a b).fixed = thousandths t ∧ Near b t (1000 * a) := by
  have hb₀ : (0 : ℚ) < b := Nat.cast_pos.2 hb
  have hratio := within_ratio a hb
  have hround := abs_halfEven_sub_le (1000 * nearest (nearest a / nearest b))
  have hle : (a : ℚ) / b ≤ 1 := (div_le_one hb₀).2 (Nat.cast_le.2 hab)
  have hx : (0 : ℚ) ≤ a / b := by positivity
  unfold Within at hratio
  rw [abs_le] at hratio hround
  set q := nearest (nearest a / nearest b) with hq
  set t := halfEven (1000 * q) with ht
  have hnonneg : 0 ≤ t := by
    have hlow : (-1 : ℚ) < t := by linarith [hround.1, hratio.1]
    have : (-1 : ℤ) < t := by exact_mod_cast hlow
    omega
  refine ⟨t.toNat, ?_, ?_⟩
  · have hne : (b : Int) ≠ 0 := by omega
    have hb' : ¬ (b : Int) < 0 := by omega
    have ha' : ¬ (a : Int) < 0 := by omega
    rw [Single.ratio, if_neg hne]
    simp [Single.fixed, ha', hb', ← hq, ← ht]
  · unfold Near
    rw [Int.toNat_of_nonneg hnonneg]
    have hcast : |(b : ℚ) * t - 1000 * a| < b := by
      have heq : (b : ℚ) * t - 1000 * a = b * (t - 1000 * (a / b)) := by field_simp
      rw [heq, abs_mul, abs_of_pos hb₀]
      have hoff : |(t : ℚ) - 1000 * (a / b)| < 1 := by
        rw [abs_lt]
        constructor <;> linarith [hround.1, hround.2, hratio.1, hratio.2]
      calc (b : ℚ) * |(t : ℚ) - 1000 * (a / b)| < b * 1 := by gcongr
        _ = b := mul_one _
    exact_mod_cast hcast

/-- A line with a word and a rate. -/
theorem readFields_thousandths (word : List Char) (hword : Separates word) (t : Nat) :
    readFields [word, ['.']] (word ++ thousandths t) = some [((t / 1000 : Nat) : Int), ((t % 1000 : Nat) : Int)] := by
  have hfields := readFields_writeFields [(word, Nat.toDigits 10 (t / 1000)), (['.'], padded 3 (t % 1000))]
    (by simpa using ⟨hword, List.cons_ne_nil _ _, digitFree_cons.2 (by decide)⟩)
    (.cons (writes_toDigits _) (.cons (writes_padded 3 _) .nil))
  rw [← hfields]
  simp [thousandths, writeFields]

theorem newline_notMem_thousandths (t : Nat) : '\n' ∉ thousandths t := by
  intro h
  rcases List.mem_append.1 h with hwhole | hrest
  · exact absurd (isDigit_toDigits hwhole) (by decide)
  · rcases List.mem_cons.1 hrest with hpoint | hpart
    · exact absurd hpoint (by decide)
    · exact absurd (isDigit_padded hpart) (by decide)

theorem newline_notMem_fixed (x : Single) : '\n' ∉ x.fixed := by
  have hsign : ∀ negative : Bool, '\n' ∉ (if negative then ['-'] else []) := by decide
  cases x with
  | nan => decide
  | infinite negative => exact List.not_mem_append (hsign negative) (by decide)
  | finite negative magnitude => exact List.not_mem_append (hsign negative) (newline_notMem_thousandths _)

theorem length_thousandths_le {t : Nat} (ht : t / 1000 < 10000000000) : (thousandths t).length ≤ 14 := by
  have hwhole := (@Nat.length_toDigits_le_iff 10 _ 10 (by decide) (by decide)).2 ht
  have hpart := (@Nat.length_toDigits_le_iff 10 (t % 1000) 3 (by decide) (by decide)).2 (Nat.mod_lt _ (by decide))
  simp [thousandths, padded]
  omega

/-- The printed ratio of two `int`s is short. -/
theorem length_fixed_ratio_le {a b : Int} (ha : a.natAbs ≤ 2147483648) : (Single.ratio a b).fixed.length ≤ 15 := by
  have hsign : ∀ negative : Bool, (if negative then ['-'] else []).length ≤ 1 := by decide
  unfold Single.ratio
  split
  · split
    · decide
    · simp only [Single.fixed, List.length_append]
      have := hsign (decide (a < 0))
      simp at this ⊢
      omega
  · rename_i hb
    have hb' : 0 < b.natAbs := Int.natAbs_pos.2 hb
    have hratio := within_ratio a.natAbs hb'
    have hround := abs_halfEven_sub_le (1000 * nearest (nearest a.natAbs / nearest b.natAbs))
    have hle : (a.natAbs : ℚ) / b.natAbs ≤ 2147483648 := by
      rw [div_le_iff₀ (Nat.cast_pos.2 hb')]
      have h1 : (1 : ℚ) ≤ b.natAbs := by exact_mod_cast hb'
      have h2 : (a.natAbs : ℚ) ≤ 2147483648 := by exact_mod_cast ha
      linarith
    unfold Within at hratio
    rw [abs_le] at hratio hround
    have hlt : (halfEven (1000 * nearest (nearest a.natAbs / nearest b.natAbs)) : ℚ) < 10000000000000 := by
      linarith [hratio.2, hround.2]
    have hlt' : halfEven (1000 * nearest (nearest a.natAbs / nearest b.natAbs)) < 10000000000000 := by exact_mod_cast hlt
    have hlen := length_thousandths_le (t := (halfEven (1000 * nearest (nearest a.natAbs / nearest b.natAbs))).toNat)
      (by omega)
    have := hsign (decide ((a < 0) ≠ (b < 0)))
    simp only [Single.fixed, List.length_append]
    omega

end UnixSysProg.Lib
