/-
The workload of `GenerateTest.cpp`: six stretches of two hundred random addresses, each within one quarter of
the virtual memory, the first quarter every other time. A quarter has 64 pages, so that with 64 frames or more
no stretch faults on a page twice, whatever `rand` answers and under either strategy.
-/
import UnixSysProg.Vmm2.Main
import UnixSysProg.Vmm2.Competitive
import Mathlib.Algebra.BigOperators.Group.List.Lemmas
import Mathlib.Algebra.GroupWithZero.Action.Defs
import Mathlib.Order.Interval.Finset.Nat
import Mathlib.Tactic.FinCases

namespace UnixSysProg.Vmm2

open UnixSysProg.Lib UnixSysProg.Vmm
open VirtualMemoryManager (InputLine)

namespace GenerateTest

/-! ## What is written -/

/-- The later answers of `rand`, after the first `k`. -/
def after (k : Nat) (rand : Nat → Int) : Nat → Int := fun i => rand (i + k)

/-- `generate`: the numbers it writes, `rand` giving its answers in their order. -/
def generate (rand : Nat → Int) (cases : Nat) (base size : Int) : List Int :=
  (List.range cases).map fun i => (rand i).tmod size + base

/-- `int chunk = 65536/4`. -/
def chunk : Int := 65536 / 4

/-- What each of the six calls of `main` writes. -/
def stretches (rand : Nat → Int) : List (List Int) :=
  [generate rand 200 0 chunk,
   generate (after 200 rand) 200 chunk chunk,
   generate (after 400 rand) 200 0 chunk,
   generate (after 600 rand) 200 (2 * chunk) chunk,
   generate (after 800 rand) 200 0 chunk,
   generate (after 1000 rand) 200 (3 * chunk) chunk]

def main (rand : Nat → Int) : List Int := (stretches rand).flatten

variable {rand : Nat → Int} {x : Int}

theorem length_generate (rand : Nat → Int) (cases : Nat) (base size : Int) :
    (generate rand cases base size).length = cases := by
  unfold generate
  rw [List.length_map, List.length_range]

/-- `generate` stays within its part of the addresses. -/
theorem generate_mem (hrand : ∀ i, 0 ≤ rand i) {cases : Nat} {base size : Int} (hsize : 0 < size)
    (hx : x ∈ generate rand cases base size) : base ≤ x ∧ x < base + size := by
  unfold generate at hx
  obtain ⟨i, _, rfl⟩ := List.mem_map.1 hx
  have hlo := Int.tmod_nonneg size (hrand i)
  have hhi := Int.tmod_lt_of_pos (rand i) hsize
  omega

/-- The quarter that call `j` is for. -/
def quarter (j : Fin 6) : Int := [0, 1, 0, 2, 0, 3].get j

/-- Stretches of the same length are found again in what is written. -/
theorem flatten_stretch {α : Type} {L : List (List α)} {k j : Nat} (hL : ∀ l ∈ L, l.length = k) (hj : j < L.length) :
    (L.flatten.take (k * (j + 1))).drop (k * j) = L[j] := by
  have hlen : L.map List.length = List.replicate L.length k :=
    List.eq_replicate_iff.2 ⟨by simp, by simpa using hL⟩
  have hsum : ∀ i ≤ L.length, ((L.map List.length).take i).sum = k * i := by
    intro i hi
    rw [hlen, List.take_replicate, List.sum_replicate, Nat.min_eq_left hi, smul_eq_mul, Nat.mul_comm]
  have hget := List.drop_take_succ_flatten_eq_getElem L j hj
  rwa [hsum (j + 1) hj, hsum j hj.le] at hget

theorem stretches_get (rand : Nat → Int) (j : Fin 6) :
    (stretches rand).get j = generate (after (200 * j.val) rand) 200 (quarter j * chunk) chunk := by
  fin_cases j <;> rfl

theorem quarter_bounds (j : Fin 6) : 0 ≤ quarter j ∧ quarter j < 4 := by
  fin_cases j <;> decide

/-- Call `j` writes addresses of its quarter. -/
theorem stretches_mem (hrand : ∀ i, 0 ≤ rand i) (j : Fin 6) (hx : x ∈ (stretches rand).get j) :
    quarter j * 16384 ≤ x ∧ x < (quarter j + 1) * 16384 := by
  rw [stretches_get] at hx
  have hmem := generate_mem (fun i => hrand (i + 200 * j.val)) (by decide) hx
  rw [show chunk = 16384 by decide] at hmem
  omega

/-- Every number written is a virtual address. -/
theorem mem_main (hrand : ∀ i, 0 ≤ rand i) (hx : x ∈ main rand) : 0 ≤ x ∧ x < 65536 := by
  obtain ⟨l, hl, hxl⟩ := List.mem_flatten.1 hx
  obtain ⟨j, hj, rfl⟩ := List.getElem_of_mem hl
  have hquarter := stretches_mem hrand ⟨j, hj⟩ hxl
  have hbounds := quarter_bounds ⟨j, hj⟩
  omega

theorem length_main (rand : Nat → Int) : (main rand).length = 1200 := by
  simp [main, stretches, length_generate]

theorem stretch_mem (hrand : ∀ i, 0 ≤ rand i) (j : Fin 6)
    (hx : x ∈ ((main rand).take (200 * (j.val + 1))).drop (200 * j.val)) :
    quarter j * 16384 ≤ x ∧ x < (quarter j + 1) * 16384 := by
  have hL : ∀ l ∈ stretches rand, l.length = 200 := by simp [stretches, length_generate]
  unfold main at hx
  rw [flatten_stretch hL j.isLt] at hx
  exact stretches_mem hrand j hx

/-- The addresses of a quarter are on at most 64 pages. -/
theorem pages_of_quarter {q : Int} (hq : 0 ≤ q ∧ q < 4) {xs : List InputLine}
    (hxs : ∀ x ∈ xs, q * 16384 ≤ x.address.toInt ∧ x.address.toInt < (q + 1) * 16384) :
    (xs.map (·.request.page)).toFinset.card ≤ 64 := by
  have hsub : (xs.map (·.request.page)).toFinset.image Fin.val ⊆ Finset.Ico (64 * q.toNat) (64 * q.toNat + 64) := by
    intro v hv
    obtain ⟨p, hp, rfl⟩ := Finset.mem_image.1 hv
    obtain ⟨x, hx, rfl⟩ := List.mem_map.1 (List.mem_toFinset.1 hp)
    obtain ⟨hlo, hhi⟩ := hxs x hx
    have hval : (BitVec.ofInt 16 x.address.toInt).toNat = x.address.toInt.toNat := by
      rw [BitVec.toNat_ofInt]
      omega
    have hpage : x.request.page.val = x.address.toInt.toNat / 256 := by
      unfold Request.page InputLine.request
      rw [getPageNumberFromLogicalAddress_val, hval]
    rw [Finset.mem_Ico, hpage]
    omega
  -- the pages of quarter `q` are numbered from `64 * q`
  have hcard := Finset.card_le_card hsub
  rw [Finset.card_image_of_injective _ Fin.val_injective, Nat.card_Ico] at hcard
  omega

/-! ## Faults -/

/-- With 64 frames or more each of the six stretches has at most 64 page faults, under either strategy and
whatever numbers `rand` comes up with, as long as the pages can be read. -/
theorem stretch_faults {n : Int} (hn : 64 ≤ n) (s : ReplacementStrategy) (bs : BackingStore) (hrand : ∀ i, 0 ≤ rand i)
    {xs : List InputLine} (hxs : xs.map (fun x => x.address.toInt) = main rand)
    (hio : ∀ x ∈ xs, ∃ page, bs.getPage (x.request.page.val * pageSize) pageSize x.request.io = .ok page) (j : Fin 6) :
    ∃ m resps m' resps',
      run VirtualMemoryManager.readByte (.initial n s bs) ((xs.take (200 * j.val)).map (·.request)) = .ok (m, resps) ∧
      run VirtualMemoryManager.readByte m (((xs.take (200 * (j.val + 1))).drop (200 * j.val)).map (·.request)) =
        .ok (m', resps') ∧
      m'.pagefaults.toInt - m.pagefaults.toInt ≤ 64 := by
  have hlen : xs.length = 1200 := by
    rw [← length_main rand, ← hxs, List.length_map]
  have hw : ((((xs.take (200 * (j.val + 1))).drop (200 * j.val)).map (·.request)).map (·.page)).toFinset.card ≤ 64 := by
    rw [List.map_map]
    refine pages_of_quarter (quarter_bounds j) fun x hx => stretch_mem hrand j ?_
    rw [← hxs, ← List.map_take, ← List.map_drop]
    exact List.mem_map_of_mem hx
  have hread : ∀ ys : List InputLine, (∀ x ∈ ys, x ∈ xs) → ∀ r ∈ ys.map (·.request),
      ∃ page, bs.getPage (r.page.val * pageSize) pageSize r.io = .ok page := by
    intro ys hys r hr
    obtain ⟨x, hx, rfl⟩ := List.mem_map.1 hr
    exact hio x (hys x hx)
  have hj := j.isLt
  obtain ⟨m, resps, _, hrun, hm, _⟩ := (VirtualMemoryManager.Underway.initial (n := n) (by omega) s bs).serving
    (hread (xs.take (200 * j.val)) fun x hx => List.mem_of_mem_take hx)
    (by rw [List.length_map, List.length_take, hlen]; omega)
  obtain ⟨m', resps', hrun', hfaults⟩ := hm.window
    (w := ((xs.take (200 * (j.val + 1))).drop (200 * j.val)).map (·.request))
    (by rw [List.length_map, List.length_map, List.length_drop, List.length_take, List.length_take, hlen]; omega)
    (hread _ fun x hx => List.mem_of_mem_take (List.mem_of_mem_drop hx)) (by omega)
  exact ⟨m, resps, m', resps', hrun, hrun', by omega⟩

/-- A line of the file, and a kernel that serves it. -/
def servedLine (v : Int) : InputLine := ⟨Int32.ofInt v, .ok, .count pageSize, fun _ => 0⟩

/-- `rand` answers zero each time, and there are 64 frames. -/
theorem stretch_faults_zero : ∃ m resps m' resps',
    run VirtualMemoryManager.readByte (.initial 64 .fifo ⟨some VirtualMemoryManager.numberedStore⟩)
      ((((main fun _ => 0).map servedLine).take (200 * (1 : Fin 6).val)).map (·.request)) = .ok (m, resps) ∧
    run VirtualMemoryManager.readByte m (((((main fun _ => 0).map servedLine).take (200 * ((1 : Fin 6).val + 1))).drop
      (200 * (1 : Fin 6).val)).map (·.request)) = .ok (m', resps') ∧
    m'.pagefaults.toInt - m.pagefaults.toInt ≤ 64 := by
  refine stretch_faults (le_refl 64) .fifo _ (fun _ => le_refl 0) ?_ ?_ 1
  · rw [List.map_map]
    refine (List.map_congr_left fun v hv => ?_).trans (List.map_id _)
    obtain ⟨hlo, hhi⟩ := mem_main (fun _ => le_refl 0) hv
    exact Int32.toInt_ofInt_of_le (by omega) (by omega)
  · intro x hx
    obtain ⟨v, _, rfl⟩ := List.mem_map.1 hx
    obtain ⟨f, _, _, hok⟩ := getPage_readsAll (VirtualMemoryManager.numberedStore_reads (servedLine v).request.address)
    exact ⟨_, hok⟩

end GenerateTest

end UnixSysProg.Vmm2
