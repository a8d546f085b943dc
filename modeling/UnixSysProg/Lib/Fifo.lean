/-
First-in-first-out caches, by the log of what has been entered: a cache with `n` places holds the last
`n` entries of its log. When only what is not held is entered, no two entries held are the same, and an
entry leaves when the `n`-th one after it comes in. A ring of slots that is written round robin is such
a cache over the log of what was written, with the slots as they were in front.
-/
import UnixSysProg.Lib.Ring
import Mathlib.Data.List.DropRight
import Mathlib.Data.List.Nodup

namespace UnixSysProg.Lib

variable {α : Type} {n m : Nat} {log : List α} {a b : α}

/-! ## What is held -/

/-- The entries that a cache with `n` places holds, the oldest one first. -/
def held (n : Nat) (log : List α) : List α := log.rtake n

theorem held_of_length_le (h : log.length ≤ n) : held n log = log := by
  unfold held List.rtake
  rw [Nat.sub_eq_zero_of_le h, List.drop_zero]

theorem held_room (h : log.length < n) : held n (log ++ [a]) = held n log ++ [a] := by
  rw [held_of_length_le (by simp only [List.length_append, List.length_singleton]; omega), held_of_length_le h.le]

theorem held_length (h : n ≤ log.length) : (held n log).length = n := by
  unfold held List.rtake
  rw [List.length_drop]
  omega

/-- In a full cache the oldest entry makes room for the new one. -/
theorem held_full (h : n + 1 ≤ log.length) : ∃ b rest, log[log.length - (n + 1)]? = some b ∧
    held (n + 1) log = b :: rest ∧ held (n + 1) (log ++ [a]) = rest ++ [a] := by
  have hlt : log.length - (n + 1) < log.length := by omega
  refine ⟨log[log.length - (n + 1)], log.drop (log.length - (n + 1) + 1), List.getElem?_eq_getElem hlt, ?_, ?_⟩
  · unfold held List.rtake
    exact List.drop_eq_getElem_cons hlt
  · unfold held
    rw [List.rtake_concat_succ]
    unfold List.rtake
    rw [show log.length - n = log.length - (n + 1) + 1 by omega]

theorem held_cons_of_full (h : n + 1 ≤ log.length) : held (n + 1) (log ++ [a]) = (held (n + 1) log).tail ++ [a] := by
  obtain ⟨b, rest, _, hheld, hnext⟩ := held_full (a := a) h
  rw [hnext, hheld, List.tail_cons]

theorem mem_held_self : a ∈ held (n + 1) (log ++ [a]) := by
  unfold held
  rw [List.rtake_concat_succ]
  simp

/-- The last `n` entries are held. -/
theorem mem_held_of_getElem? {k : Nat} (h : log[k]? = some a) (hk : log.length ≤ k + n) : a ∈ held n log := by
  unfold held List.rtake
  refine List.mem_of_getElem? (i := k - (log.length - n)) ?_
  rw [List.getElem?_drop, ← h]
  congr 1
  omega

/-- What is held when `a` comes in was held before, in the same order, but for `a` itself. -/
theorem held_concat (n : Nat) (log : List α) (a : α) :
    ∃ kept, kept.Sublist (held (n + 1) log) ∧ held (n + 1) (log ++ [a]) = kept ++ [a] := by
  by_cases hroom : log.length < n + 1
  · exact ⟨_, List.Sublist.refl _, held_room hroom⟩
  · obtain ⟨b, rest, _, hheld, hnext⟩ := held_full (a := a) (not_lt.1 hroom)
    refine ⟨rest, ?_, hnext⟩
    rw [hheld]
    exact List.sublist_cons_self b rest

/-! ## Entering what is not held -/

/-- A log in which nothing was entered while it was held. -/
inductive Entered (n : Nat) : List α → Prop
  | nil : Entered n []
  | enter {log : List α} {a : α} : Entered n log → a ∉ held n log → Entered n (log ++ [a])

theorem Entered.nodup (h : Entered (n + 1) log) : (held (n + 1) log).Nodup := by
  induction h with
  | nil => simp [held]
  | @enter log a _ hnew ih =>
    by_cases hroom : log.length < n + 1
    · rw [held_room hroom, ← List.concat_eq_append]
      exact ih.concat hnew
    · obtain ⟨b, rest, _, hheld, hnext⟩ := held_full (a := a) (not_lt.1 hroom)
      rw [hheld] at ih hnew
      rw [hnext, ← List.concat_eq_append]
      exact (List.nodup_cons.1 ih).2.concat fun hrest => hnew (List.mem_cons_of_mem _ hrest)

/-- Entering makes the new entry held, and ends that of the oldest one when there is no room. -/
theorem Entered.mem_held (h : Entered (n + 1) log) :
    b ∈ held (n + 1) (log ++ [a]) ↔
      b = a ∨ (b ∈ held (n + 1) log ∧ (n + 1 ≤ log.length → log[log.length - (n + 1)]? ≠ some b)) := by
  by_cases hroom : log.length < n + 1
  · rw [held_room hroom, List.mem_append, List.mem_singleton]
    have : ¬ n + 1 ≤ log.length := not_le.2 hroom
    simp [this, or_comm]
  · obtain ⟨o, rest, hold, hheld, hnext⟩ := held_full (a := a) (not_lt.1 hroom)
    have hnodup := h.nodup
    rw [hheld, List.nodup_cons] at hnodup
    rw [hnext, hheld, hold, List.mem_append, List.mem_singleton, List.mem_cons]
    constructor
    · rintro (hrest | rfl)
      · refine .inr ⟨.inr hrest, fun _ he => ?_⟩
        cases he
        exact hnodup.1 hrest
      · exact .inl rfl
    · rintro (rfl | ⟨rfl | hrest, hne⟩)
      · exact .inr rfl
      · exact absurd rfl (hne (not_lt.1 hroom))
      · exact .inl hrest

/-- The log of a cache that is asked for `xs`, one after the other: what is not held is entered. -/
def entries [DecidableEq α] (n : Nat) (xs : List α) : List α :=
  xs.foldl (fun log x => if x ∈ held n log then log else log ++ [x]) []

theorem entries_concat [DecidableEq α] (n : Nat) (xs : List α) (x : α) :
    entries n (xs ++ [x]) = if x ∈ held n (entries n xs) then entries n xs else entries n xs ++ [x] := by
  unfold entries
  rw [List.foldl_append]
  rfl

theorem length_entries_le [DecidableEq α] (n : Nat) (xs : List α) : (entries n xs).length ≤ xs.length := by
  induction xs using List.reverseRecOn with
  | nil => exact le_refl 0
  | append_singleton xs x ih =>
    rw [entries_concat, List.length_append, List.length_singleton]
    split
    · exact Nat.le_succ_of_le ih
    · rw [List.length_append, List.length_singleton]
      exact Nat.succ_le_succ ih

/-! ## Rings as caches -/

section Ring

variable {q : Fin (m + 1) → Option α} {i j k : Fin (m + 1)}

/-- A ring, read from the slot that is written next, after `log` was written: what it holds comes after
the slots that are still empty. -/
def Written (q : Fin (m + 1) → Option α) (i : Fin (m + 1)) (log : List α) : Prop :=
  ringFrom q i = held (m + 1) (List.replicate (m + 1) none ++ log.map some)

theorem written_nil (hq : ∀ j, q j = none) (i : Fin (m + 1)) : Written q i [] := by
  unfold Written
  rw [List.map_nil, List.append_nil, held_of_length_le (by simp), ringFrom]
  refine List.eq_replicate_iff.2 ⟨by simp, fun x hx => ?_⟩
  obtain ⟨j, rfl⟩ := List.mem_ofFn.1 hx
  exact hq _

theorem Written.write (h : Written q i log) (a : α) :
    Written (Function.update q i (some a)) (nextSlot i) (log ++ [a]) := by
  unfold Written at h ⊢
  rw [ringFrom_next, ringAfter_update, Function.update_self, List.map_append, List.map_singleton, ← List.append_assoc,
    held_cons_of_full (by simp), ← h, ringFrom_eq, List.tail_cons]

theorem held_replicate (x : α) (log : List α) :
    held n (List.replicate n x ++ log) = List.replicate (n - log.length) x ++ held n log := by
  unfold held List.rtake
  rw [List.drop_append, List.drop_replicate, List.length_append, List.length_replicate]
  congr 2 <;> omega

theorem Written.eq (h : Written q i log) :
    ringFrom q i = List.replicate (m + 1 - log.length) none ++ (held (m + 1) log).map some := by
  unfold Written at h
  rw [h, held_replicate, List.length_map]
  unfold held List.rtake
  rw [List.length_map, List.map_drop]

/-- The values in the slots are the entries held. -/
theorem Written.exists_iff (h : Written q i log) : (∃ j, q j = some a) ↔ a ∈ held (m + 1) log := by
  have hmem : some a ∈ ringFrom q i ↔ ∃ j, q j = some a := by
    unfold ringFrom
    rw [List.mem_ofFn]
    constructor
    · rintro ⟨j, hj⟩
      exact ⟨i + j, hj⟩
    · rintro ⟨j, hj⟩
      exact ⟨j - i, by rw [add_sub_cancel]; exact hj⟩
  rw [← hmem, h.eq, List.mem_append, List.mem_map]
  constructor
  · rintro (hnone | ⟨b, hb, he⟩)
    · cases List.eq_of_mem_replicate hnone
    · cases he
      exact hb
  · intro ha
    exact .inr ⟨a, ha, rfl⟩

/-- When what is held is all different, so are the values in the slots. -/
theorem Written.unique (h : Written q i log) (hheld : (held (m + 1) log).Nodup) (hj : q j = some a)
    (hk : q k = some a) : j = k := by
  have hpair : (ringFrom q i).Pairwise fun x y => x = y → x = none := by
    rw [h.eq, List.pairwise_append]
    refine ⟨List.pairwise_replicate.2 (.inr fun _ => rfl), ?_, ?_⟩
    · refine List.pairwise_map.2 (hheld.imp fun hne he => ?_)
      exact absurd (Option.some.inj he) hne
    · intro x hx y _ _
      exact List.eq_of_mem_replicate hx
  unfold ringFrom at hpair
  rw [List.pairwise_ofFn] at hpair
  have hget : ∀ l : Fin (m + 1), q (i + (l - i)) = q l := fun l => by rw [add_sub_cancel]
  rcases lt_trichotomy (j - i) (k - i) with hlt | heq | hlt
  · have := hpair hlt (by rw [hget, hget, hj, hk])
    rw [hget, hj] at this
    cases this
  · exact sub_left_injective heq
  · have := hpair hlt (by rw [hget, hget, hj, hk])
    rw [hget, hk] at this
    cases this

end Ring

end UnixSysProg.Lib
