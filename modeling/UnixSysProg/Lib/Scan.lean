/-
Linear scans: a loop that keeps the first eligible element of smallest key below a start value,
and a loop that keeps the last element passing a test.
-/
import Mathlib.Order.Lattice
import Mathlib.Data.List.Basic

namespace UnixSysProg.Lib

variable {α κ : Type}

/-! ## The smallest key -/

section Min

variable [LinearOrder κ] (elig : α → Bool) (key : α → κ)

/-- One step of the scan: the best key so far and where it was found. -/
def scanMin (best : κ × Option α) (x : α) : κ × Option α :=
  if elig x = true ∧ key x < best.1 then (key x, some x) else best

/-- What a scan that began at `start` has found among `seen`: nothing, and no eligible key is below
`start`; or an eligible element whose key is below `start` and smallest. -/
def Best (start : κ) (seen : List α) (best : κ × Option α) : Prop :=
  (best = (start, none) ∧ ∀ y ∈ seen, elig y = true → start ≤ key y) ∨
  ∃ x ∈ seen, best = (key x, some x) ∧ elig x = true ∧ key x < start ∧ ∀ y ∈ seen, elig y = true → key x ≤ key y

variable {elig key}

theorem scanMin_best {start : κ} {seen : List α} {best : κ × Option α} (h : Best elig key start seen best) (x : α) :
    Best elig key start (seen ++ [x]) (scanMin elig key best x) := by
  have hmem : ∀ {y}, y ∈ seen ++ [x] ↔ y ∈ seen ∨ y = x := by simp
  unfold scanMin
  split
  · rename_i hx
    refine .inr ⟨x, hmem.2 (.inr rfl), rfl, hx.1, ?_, ?_⟩
    · rcases h with ⟨rfl, _⟩ | ⟨z, _, rfl, _, hz, _⟩
      · exact hx.2
      · exact lt_trans hx.2 hz
    · intro y hy he
      rcases hmem.1 hy with hy | rfl
      · rcases h with ⟨rfl, h⟩ | ⟨z, _, rfl, _, _, h⟩
        · exact le_trans hx.2.le (h y hy he)
        · exact le_trans hx.2.le (h y hy he)
      · exact le_rfl
  · rename_i hx
    have hlast : elig x = true → best.1 ≤ key x := fun he => not_lt.1 fun hlt => hx ⟨he, hlt⟩
    rcases h with ⟨rfl, h⟩ | ⟨z, hz, rfl, hez, hlt, h⟩
    · refine .inl ⟨rfl, fun y hy he => ?_⟩
      rcases hmem.1 hy with hy | rfl
      · exact h y hy he
      · exact hlast he
    · refine .inr ⟨z, hmem.2 (.inl hz), rfl, hez, hlt, fun y hy he => ?_⟩
      rcases hmem.1 hy with hy | rfl
      · exact h y hy he
      · exact hlast he

theorem foldl_scanMin_best {start : κ} : ∀ (l seen : List α) (best : κ × Option α),
    Best elig key start seen best → Best elig key start (seen ++ l) (l.foldl (scanMin elig key) best)
  | [], seen, best, h => by simpa using h
  | x :: l, seen, best, h => by
    have := foldl_scanMin_best l (seen ++ [x]) _ (scanMin_best h x)
    simpa using this

theorem best_start (start : κ) : Best elig key start [] (start, none) := .inl ⟨rfl, by simp⟩

/-- A found element is eligible, below the start and of smallest key. -/
theorem foldl_scanMin_some {start : κ} {l : List α} {x : α}
    (h : (l.foldl (scanMin elig key) (start, none)).2 = some x) :
    elig x = true ∧ key x < start ∧ ∀ y ∈ l, elig y = true → key x ≤ key y := by
  rcases foldl_scanMin_best l [] (start, none) (best_start start : Best elig key start [] (start, none)) with
    ⟨he, _⟩ | ⟨z, _, he, h1, h2, h3⟩
  · rw [he] at h; cases h
  · rw [he] at h; cases h
    exact ⟨h1, h2, by simpa using h3⟩

/-- The scan finds an element exactly when an eligible one is below the start. -/
theorem foldl_scanMin_isSome {start : κ} {l : List α} :
    (∃ x, (l.foldl (scanMin elig key) (start, none)).2 = some x) ↔ ∃ y ∈ l, elig y = true ∧ key y < start := by
  rcases foldl_scanMin_best l [] (start, none) (best_start start : Best elig key start [] (start, none)) with
    ⟨he, h⟩ | ⟨z, hz, he, h1, h2, _⟩
  · rw [he]
    simp only [List.nil_append] at h
    constructor
    · rintro ⟨x, hx⟩; cases hx
    · rintro ⟨y, hy, hey, hlt⟩; exact absurd (h y hy hey) (not_le.2 hlt)
  · rw [he]
    exact ⟨fun _ => ⟨z, by simpa using hz, h1, h2⟩, fun _ => ⟨z, rfl⟩⟩

end Min

/-! ## The last match -/

/-- One step of a scan that keeps the latest match. -/
def scanLast (p : α → Bool) (found : Option α) (x : α) : Option α := if p x then some x else found

theorem foldl_scanLast {p : α → Bool} : ∀ (l : List α) (found : Option α),
    (l.foldl (scanLast p) found = found ∧ ∀ y ∈ l, p y = false) ∨
      ∃ x ∈ l, l.foldl (scanLast p) found = some x ∧ p x = true
  | [], found => .inl ⟨rfl, by simp⟩
  | x :: l, found => by
    rw [List.foldl_cons]
    rcases foldl_scanLast l (scanLast p found x) with ⟨h1, h2⟩ | ⟨y, hy, h1, h2⟩
    · cases hx : p x
      · have hs : scanLast p found x = found := by simp [scanLast, hx]
        rw [hs] at h1 ⊢
        refine .inl ⟨h1, fun y hy => ?_⟩
        rcases List.mem_cons.1 hy with rfl | hy
        · exact hx
        · exact h2 y hy
      · have hs : scanLast p found x = some x := by simp [scanLast, hx]
        rw [hs] at h1 ⊢
        exact .inr ⟨x, List.mem_cons_self .., h1, hx⟩
    · exact .inr ⟨y, List.mem_cons_of_mem _ hy, h1, h2⟩

/-- When exactly one element passes the test, the scan ends with it. -/
theorem foldl_scanLast_unique {p : α → Bool} {l : List α} {x : α} (hx : x ∈ l) (hp : p x = true)
    (hu : ∀ y ∈ l, p y = true → y = x) : l.foldl (scanLast p) none = some x := by
  rcases foldl_scanLast (p := p) l none with ⟨_, h⟩ | ⟨y, hy, h, hpy⟩
  · rw [h x hx] at hp; cases hp
  · rw [h, hu y hy hpy]

end UnixSysProg.Lib
