/-
The maximal runs of a list between separators: what splitting at the separators leaves once the empty
pieces are dropped. A reader that skips separators and takes a run at a time finds the runs in order, and
the runs of runs joined by separators are these runs again.
-/
import Mathlib.Data.List.TakeWhile

namespace UnixSysProg.Lib

variable {α : Type} {p : α → Bool} {c : α} {xs ys w : List α} {ws : List (List α)}

/-- The maximal runs of elements that are not separators. -/
def runs (p : α → Bool) (xs : List α) : List (List α) := (xs.splitOnP p).filter fun w => !w.isEmpty

@[simp] theorem runs_nil (p : α → Bool) : runs p [] = [] := by
  simp [runs, List.splitOnP_nil]

/-- Runs end at a separator. -/
theorem runs_append_cons (hc : p c = true) (xs ys : List α) : runs p (xs ++ c :: ys) = runs p xs ++ runs p ys := by
  unfold runs
  rw [List.splitOnP_append_cons xs ys hc, List.filter_append]

theorem runs_cons (hc : p c = true) (xs : List α) : runs p (c :: xs) = runs p xs := by
  simpa using runs_append_cons hc [] xs

theorem runs_of_forall (hne : w ≠ []) (h : ∀ c ∈ w, p c = false) : runs p w = [w] := by
  rw [runs, List.splitOnP_eq_singleton h]
  simp [hne]

/-- Separators in front belong to no run. -/
theorem runs_dropWhile (p : α → Bool) (xs : List α) : runs p (xs.dropWhile p) = runs p xs := by
  induction xs with
  | nil => rfl
  | cons c xs ih =>
    by_cases hc : p c = true
    · rw [List.dropWhile_cons_of_pos hc, ih, runs_cons hc]
    · rw [List.dropWhile_cons_of_neg hc]

/-- A list that starts with no separator starts with a run. -/
theorem runs_eq_cons (hne : xs ≠ []) (hhead : p (xs.head hne) = false) :
    runs p xs = xs.takeWhile (fun c => !p c) :: runs p (xs.dropWhile fun c => !p c) := by
  have htake : ∀ c ∈ xs.takeWhile (fun c => !p c), p c = false := fun c hc => by
    simpa using List.mem_takeWhile_imp hc
  have hrun : xs.takeWhile (fun c => !p c) ≠ [] := by
    obtain ⟨c, ys, rfl⟩ := List.exists_cons_of_ne_nil hne
    rw [List.head_cons] at hhead
    rw [List.takeWhile_cons_of_pos (by simp [hhead])]
    simp
  have hsplit := List.takeWhile_append_dropWhile (p := fun c => !p c) (l := xs)
  cases hrest : xs.dropWhile (fun c => !p c) with
  | nil =>
    rw [hrest, List.append_nil] at hsplit
    rw [runs_nil, hsplit]
    exact runs_of_forall hne (by rw [← hsplit]; exact htake)
  | cons c ys =>
    have hc : p c = true := by
      have := List.head_dropWhile_not (fun c => !p c) (by rw [hrest]; simp)
      simpa [hrest] using this
    calc runs p xs = runs p (xs.takeWhile (fun c => !p c) ++ c :: ys) := by rw [← hrest, hsplit]
      _ = xs.takeWhile (fun c => !p c) :: runs p (c :: ys) := by
        rw [runs_append_cons hc, runs_of_forall hrun htake, runs_cons hc, List.singleton_append]

/-- Runs joined by a separator. -/
theorem runs_intercalate (hc : p c = true) (h : ∀ w ∈ ws, w ≠ [] ∧ ∀ d ∈ w, p d = false) :
    runs p ([c].intercalate ws) = ws := by
  induction ws with
  | nil => simp
  | cons w ws ih =>
    obtain ⟨hw, hws⟩ := List.forall_mem_cons.1 h
    cases ws with
    | nil => simpa using runs_of_forall hw.1 hw.2
    | cons v ws =>
      have : [c].intercalate (w :: v :: ws) = w ++ c :: [c].intercalate (v :: ws) := by
        simp [List.intercalate, List.intersperse]
      rw [this, runs_append_cons hc, runs_of_forall hw.1 hw.2, ih hws, List.singleton_append]

/-! ## Words between separators -/

/-- Words that are not empty and free of separators, with separators in front of the first one and behind
each, and at least one between any two. -/
structure Spaced (p : α → Bool) (ws : List (List α)) (lead : List α) (gaps : List (List α)) : Prop where
  words : ∀ w ∈ ws, w ≠ [] ∧ ∀ c ∈ w, p c = false
  separators : ∀ g ∈ lead :: gaps, ∀ c ∈ g, p c = true
  length : gaps.length = ws.length
  between : ∀ g ∈ gaps.dropLast, g ≠ []

/-- The words with what is in front of them and behind each. -/
def joined (lead : List α) (ws gaps : List (List α)) : List α := lead ++ (List.zipWith (· ++ ·) ws gaps).flatten

variable {lead g : List α} {gaps : List (List α)}

theorem joined_cons (lead w g : List α) (ws gaps : List (List α)) :
    joined lead (w :: ws) (g :: gaps) = lead ++ (w ++ joined g ws gaps) := by
  simp [joined]

/-- What follows the first word. -/
theorem Spaced.tail (h : Spaced p (w :: ws) lead (g :: gaps)) : Spaced p ws g gaps where
  words v hv := h.words v (List.mem_cons_of_mem _ hv)
  separators v hv := h.separators v (List.mem_cons_of_mem _ hv)
  length := Nat.succ_inj.1 h.length
  between v hv := by
    cases gaps with
    | nil => exact absurd hv List.not_mem_nil
    | cons f gaps => exact h.between v (by rw [List.dropLast_cons_cons]; exact List.mem_cons_of_mem _ hv)

/-- A word in front, with separators behind it unless it is the only one. -/
theorem Spaced.cons (h : Spaced p ws g gaps) (hw : w ≠ [] ∧ ∀ c ∈ w, p c = false) (hlead : ∀ c ∈ lead, p c = true)
    (hg : ws = [] ∨ g ≠ []) : Spaced p (w :: ws) lead (g :: gaps) where
  words := List.forall_mem_cons.2 ⟨hw, h.words⟩
  separators := List.forall_mem_cons.2 ⟨hlead, h.separators⟩
  length := congrArg Nat.succ h.length
  between v hv := by
    cases gaps with
    | nil => exact absurd hv List.not_mem_nil
    | cons f gaps =>
      have hne : ws ≠ [] := by
        rintro rfl
        cases h.length
      rw [List.dropLast_cons_cons] at hv
      rcases List.mem_cons.1 hv with rfl | hv
      · exact hg.resolve_left hne
      · exact h.between v hv

theorem runs_append_separators : ∀ {g : List α}, (∀ c ∈ g, p c = true) → ∀ xs, runs p (g ++ xs) = runs p xs
  | [], _, _ => rfl
  | c :: g, hg, xs => by
    rw [List.forall_mem_cons] at hg
    rw [List.cons_append, runs_cons hg.1, runs_append_separators hg.2]

/-- The runs are the words. -/
theorem runs_joined : ∀ {lead : List α} {ws gaps : List (List α)}, Spaced p ws lead gaps →
    runs p (joined lead ws gaps) = ws
  | lead, [], gaps, h => by
    rw [joined, List.zipWith_nil_left, runs_append_separators (h.separators lead (List.mem_cons_self ..))]
    exact runs_nil p
  | lead, w :: ws, [], h => by cases h.length
  | lead, w :: ws, g :: gaps, h => by
    have hw := h.words w (List.mem_cons_self ..)
    have hg : ∀ c ∈ g, p c = true := h.separators g (by simp)
    have ih := runs_joined h.tail
    rw [joined_cons, runs_append_separators (h.separators lead (List.mem_cons_self ..))]
    cases g with
    | nil =>
      -- a word with no separator behind it is the last one
      cases gaps with
      | cons f gaps => exact absurd rfl (h.between [] (by simp))
      | nil =>
        obtain rfl : ws = [] := List.length_eq_zero_iff.1 (Nat.succ_inj.1 h.length).symm
        rw [joined, List.zipWith_nil_left, List.flatten_nil, List.append_nil, List.append_nil]
        exact runs_of_forall hw.1 hw.2
    | cons c g =>
      rw [List.forall_mem_cons] at hg
      rw [joined, List.cons_append] at ih ⊢
      rw [runs_cons hg.1] at ih
      rw [runs_append_cons hg.1, ih, runs_of_forall hw.1 hw.2, List.singleton_append]

/-- Every list is made of words and separators: an element more in front is a separator, or belongs to the
word that starts there, or is a word of its own. -/
theorem exists_spaced (p : α → Bool) : ∀ xs : List α, ∃ ws lead gaps, Spaced p ws lead gaps ∧ xs = joined lead ws gaps
  | [] => ⟨[], [], [], ⟨by simp, by simp, rfl, by simp⟩, rfl⟩
  | c :: xs => by
    obtain ⟨ws, lead, gaps, h, rfl⟩ := exists_spaced p xs
    have hlead := h.separators lead (List.mem_cons_self ..)
    cases hc : p c with
    | true =>
      refine ⟨ws, c :: lead, gaps, ⟨h.words, ?_, h.length, h.between⟩, rfl⟩
      exact List.forall_mem_cons.2 ⟨List.forall_mem_cons.2 ⟨hc, hlead⟩, (List.forall_mem_cons.1 h.separators).2⟩
    | false =>
      by_cases hstart : ws = [] ∨ lead ≠ []
      · exact ⟨[c] :: ws, [], lead :: gaps, h.cons ⟨by simp, by simpa using hc⟩ (by simp) hstart, by simp [joined]⟩
      · obtain ⟨hws, rfl⟩ : ws ≠ [] ∧ lead = [] := by simpa using hstart
        obtain ⟨w, ws, rfl⟩ := List.exists_cons_of_ne_nil hws
        obtain ⟨hw, hrest⟩ := List.forall_mem_cons.1 h.words
        refine ⟨(c :: w) :: ws, [], gaps, ⟨List.forall_mem_cons.2 ⟨⟨by simp, ?_⟩, hrest⟩, h.separators, h.length,
          h.between⟩, ?_⟩
        · exact List.forall_mem_cons.2 ⟨hc, hw.2⟩
        · cases gaps with
          | nil => cases h.length
          | cons g gaps => simp [joined]

/-- The runs are the words that a list is made of. -/
theorem runs_eq_iff {p : α → Bool} {xs : List α} {ws : List (List α)} :
    runs p xs = ws ↔ ∃ lead gaps, Spaced p ws lead gaps ∧ xs = joined lead ws gaps := by
  constructor
  · rintro rfl
    obtain ⟨ws, lead, gaps, h, rfl⟩ := exists_spaced p xs
    rw [runs_joined h]
    exact ⟨lead, gaps, h, rfl⟩
  · rintro ⟨lead, gaps, h, rfl⟩
    exact runs_joined h

/-- The runs in a row are the list without its separators. -/
theorem flatten_runs (p : α → Bool) : ∀ xs : List α, (runs p xs).flatten = xs.filter fun c => !p c := by
  have hjoined : ∀ {lead : List α} {ws gaps : List (List α)}, Spaced p ws lead gaps →
      ws.flatten = (joined lead ws gaps).filter fun c => !p c := by
    intro lead ws
    induction ws generalizing lead with
    | nil =>
      intro gaps h
      have hlead := h.separators lead (List.mem_cons_self ..)
      rw [joined, List.zipWith_nil_left, List.flatten_nil, List.append_nil, eq_comm, List.filter_eq_nil_iff]
      intro c hc
      simp [hlead c hc]
    | cons w ws ih =>
      intro gaps h
      cases gaps with
      | nil => cases h.length
      | cons g gaps =>
        have hlead := h.separators lead (List.mem_cons_self ..)
        have hw := (h.words w (List.mem_cons_self ..)).2
        rw [List.flatten_cons, joined_cons, List.filter_append, List.filter_append, ← ih h.tail,
          List.filter_eq_nil_iff.2 fun c hc => by simp [hlead c hc],
          List.filter_eq_self.2 fun c hc => by simp [hw c hc], List.nil_append]
  intro xs
  obtain ⟨ws, lead, gaps, h, rfl⟩ := exists_spaced p xs
  rw [runs_joined h, hjoined h]

end UnixSysProg.Lib
