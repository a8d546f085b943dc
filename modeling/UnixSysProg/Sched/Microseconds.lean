/-
`time_difference` counts microseconds in a `long`. Where its product and its sum are in range the long
it returns is the value of `timeDifference`, and between normalised times that value is antisymmetric,
in the order of the times, and less than a microsecond off the nanoseconds between them; along a chain of
times the differences add up to the whole difference within a microsecond for each link. A product in
range is not enough: in the last second the part of a second can take the sum out of it.
-/
import UnixSysProg.Lib.Rounding
import UnixSysProg.Sched.Scheduler

namespace UnixSysProg.Sched

open UnixSysProg.Lib

namespace Timespec

/-- The part of a second is one. -/
def Normalised (t : Timespec) : Prop := 0 ≤ t.tvNsec ∧ t.tvNsec < 1000000000

instance (t : Timespec) : Decidable t.Normalised := inferInstanceAs (Decidable (_ ∧ _))

def nanoseconds (t : Timespec) : Int := t.tvSec * 1000000000 + t.tvNsec

end Timespec

/-- `time_difference` in 64-bit arithmetic. -/
def timeDifferenceLong (time1 time2 : Timespec) : Int64 :=
  (Int64.ofInt time1.tvSec - Int64.ofInt time2.tvSec) * 1000000 +
    (Int64.ofInt time1.tvNsec - Int64.ofInt time2.tvNsec) / 1000

/-- The value is one of a `long`. -/
def FitsLong (x : Int) : Prop := -2 ^ 63 ≤ x ∧ x < 2 ^ 63

instance (x : Int) : Decidable (FitsLong x) := inferInstanceAs (Decidable (_ ∧ _))

/-- The product of `time_difference` is in range. -/
def ProductFits (time1 time2 : Timespec) : Prop := FitsLong ((time1.tvSec - time2.tvSec) * 1000000)

/-- The product of `time_difference` and its sum are in range. -/
def InRange (time1 time2 : Timespec) : Prop :=
  ProductFits time1 time2 ∧ FitsLong (timeDifference time1 time2)

variable {a b c : Timespec}

/-! ## The long returned -/

theorem toInt_ofInt_fits {x : Int} (h : FitsLong x) : (Int64.ofInt x).toInt = x :=
  Int64.toInt_ofInt_of_le h.1 h.2

/-- Between normalised times in range the long is the number of microseconds. -/
theorem toInt_timeDifferenceLong (ha : a.Normalised) (hb : b.Normalised) (h : InRange a b) :
    (timeDifferenceLong a b).toInt = timeDifference a b := by
  unfold Timespec.Normalised at ha hb
  have hnsec : (Int64.ofInt a.tvNsec - Int64.ofInt b.tvNsec).toInt = a.tvNsec - b.tvNsec := by
    rw [← Int64.ofInt_sub]
    exact toInt_ofInt_fits ⟨by omega, by omega⟩
  have hmicro : (Int64.ofInt a.tvNsec - Int64.ofInt b.tvNsec) / 1000 =
      Int64.ofInt ((a.tvNsec - b.tvNsec).tdiv 1000) := by
    rw [← Int64.toInt_inj, Int64.toInt_div_of_ne_right _ _ (by decide), hnsec]
    have hnear := near_tdiv (k := 1000) (by omega) (a.tvNsec - b.tvNsec)
    unfold Near at hnear
    rw [abs_lt] at hnear
    rw [toInt_ofInt_fits ⟨by omega, by omega⟩, show (1000 : Int64).toInt = 1000 by decide]
  have hall : timeDifferenceLong a b = Int64.ofInt (timeDifference a b) := by
    unfold timeDifferenceLong timeDifference
    rw [hmicro, Int64.ofInt_add, Int64.ofInt_mul, Int64.ofInt_sub, show Int64.ofInt 1000000 = 1000000 by decide]
  rw [hall, toInt_ofInt_fits h.2]

/-! ## The microseconds -/

theorem timeDifference_neg (a b : Timespec) : timeDifference a b = -timeDifference b a := by
  unfold timeDifference
  rw [show a.tvNsec - b.tvNsec = -(b.tvNsec - a.tvNsec) by omega, Int.neg_tdiv]
  omega

/-- A later time is further from any other. The seconds are exact, and a borrow of up to a second in the
rest is made up for by a whole one. -/
theorem timeDifference_mono (hb : b.Normalised) (hc : c.Normalised) (h : b.nanoseconds ≤ c.nanoseconds)
    (a : Timespec) : timeDifference b a ≤ timeDifference c a := by
  unfold Timespec.Normalised at hb hc
  unfold Timespec.nanoseconds at h
  have hrest := tdiv_le_add_tdiv (k := 1000) (m := (c.tvSec - b.tvSec) * 1000000)
    (a := b.tvNsec - a.tvNsec) (b := c.tvNsec - a.tvNsec) (by omega) (by omega) (by omega)
  unfold timeDifference
  omega

theorem timeDifference_anti (ha : a.Normalised) (hb : b.Normalised) (h : a.nanoseconds ≤ b.nanoseconds)
    (c : Timespec) : timeDifference c b ≤ timeDifference c a := by
  rw [timeDifference_neg c b, timeDifference_neg c a]
  exact neg_le_neg (timeDifference_mono ha hb h c)

/-- Less than a microsecond off. -/
theorem near_timeDifference (a b : Timespec) :
    Near 1000 (timeDifference a b) (a.nanoseconds - b.nanoseconds) := by
  have h := (near_tdiv (k := 1000) (by omega) (a.tvNsec - b.tvNsec)).add_units ((a.tvSec - b.tvSec) * 1000000)
  have hns : a.nanoseconds - b.nanoseconds = 1000 * ((a.tvSec - b.tvSec) * 1000000) + (a.tvNsec - b.tvNsec) := by
    unfold Timespec.nanoseconds
    omega
  rw [hns]
  exact h

/-! ## Differences of longs -/

/-- `time_difference` between normalised times whose differences `D` allows: antisymmetric, monotone in
its first argument and antitone in its second, less than a microsecond off the exact difference, and along
a chain of times off from the whole difference by at most a microsecond for each link. -/
structure WellBehaved (D : Timespec → Timespec → Prop) : Prop where
  antisymmetric : ∀ a b, a.Normalised → b.Normalised → D a b → D b a →
    (timeDifferenceLong a b).toInt = -(timeDifferenceLong b a).toInt
  first : ∀ a b c, a.Normalised → b.Normalised → c.Normalised → D b a → D c a → b.nanoseconds ≤ c.nanoseconds →
    (timeDifferenceLong b a).toInt ≤ (timeDifferenceLong c a).toInt
  second : ∀ a b c, a.Normalised → b.Normalised → c.Normalised → D c a → D c b → a.nanoseconds ≤ b.nanoseconds →
    (timeDifferenceLong c b).toInt ≤ (timeDifferenceLong c a).toInt
  near : ∀ a b, a.Normalised → b.Normalised → D a b →
    |1000 * (timeDifferenceLong a b).toInt - (a.nanoseconds - b.nanoseconds)| < 1000
  chain : ∀ t₀ ts, (∀ t ∈ t₀ :: ts, t.Normalised) → (∀ p ∈ ts.zip (t₀ :: ts), D p.1 p.2) → D (ts.getLastD t₀) t₀ →
    |(List.zipWith (fun t u => (timeDifferenceLong t u).toInt) ts (t₀ :: ts)).sum -
      (timeDifferenceLong (ts.getLastD t₀) t₀).toInt| ≤ ts.length

/-- The longs of a chain in range are its differences. -/
theorem zipWith_timeDifferenceLong : ∀ {ts us : List Timespec}, (∀ t ∈ ts, t.Normalised) → (∀ u ∈ us, u.Normalised) →
    (∀ p ∈ ts.zip us, InRange p.1 p.2) →
    List.zipWith (fun t u => (timeDifferenceLong t u).toInt) ts us = List.zipWith timeDifference ts us
  | [], us, _, _, _ => by rw [List.zipWith_nil_left, List.zipWith_nil_left]
  | t :: ts, [], _, _, _ => by rw [List.zipWith_nil_right, List.zipWith_nil_right]
  | t :: ts, u :: us, ht, hu, h => by
    rw [List.forall_mem_cons] at ht hu
    rw [List.zip_cons_cons, List.forall_mem_cons] at h
    rw [List.zipWith_cons_cons, List.zipWith_cons_cons, zipWith_timeDifferenceLong ht.2 hu.2 h.2,
      toInt_timeDifferenceLong ht.1 hu.1 h.1]

/-- For all normalised times, across second boundaries, wherever the product and the sum of
`time_difference` are in range. -/
theorem timeDifferenceLong_wellBehaved : WellBehaved InRange where
  antisymmetric a b ha hb hab hba := by
    rw [toInt_timeDifferenceLong ha hb hab, toInt_timeDifferenceLong hb ha hba, timeDifference_neg]
  first a b c ha hb hc hba hca hle := by
    rw [toInt_timeDifferenceLong hb ha hba, toInt_timeDifferenceLong hc ha hca]
    exact timeDifference_mono hb hc hle a
  second a b c ha hb hc hca hcb hle := by
    rw [toInt_timeDifferenceLong hc hb hcb, toInt_timeDifferenceLong hc ha hca]
    exact timeDifference_anti ha hb hle c
  near a b ha hb hab := by
    rw [toInt_timeDifferenceLong ha hb hab]
    exact near_timeDifference a b
  chain t₀ ts hn hlinks hall := by
    have hts : ∀ t ∈ ts, t.Normalised := fun t ht => hn t (List.mem_cons_of_mem _ ht)
    have hlast : (ts.getLastD t₀).Normalised := by
      rcases ts with _ | ⟨t, ts⟩
      · exact hn t₀ (List.mem_cons_self ..)
      · exact hn _ (List.mem_cons_of_mem _ (by simp [List.getLastD]))
    rw [zipWith_timeDifferenceLong hts hn hlinks,
      toInt_timeDifferenceLong hlast (hn t₀ (List.mem_cons_self ..)) hall]
    exact abs_sum_chain_sub_le near_timeDifference t₀ ts

/-- 9223372036854 seconds and a part of one: the product is in range and the sum is not. -/
theorem not_wellBehaved_productFits : ¬ WellBehaved ProductFits := by
  intro h
  have hnear := h.near ⟨9223372036854, 999999999⟩ ⟨0, 0⟩ (by decide) (by decide) ⟨by decide, by decide⟩
  rw [abs_lt] at hnear
  exact absurd hnear.1 (by decide)

end UnixSysProg.Sched
