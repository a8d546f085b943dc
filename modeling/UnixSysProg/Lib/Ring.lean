/-
A ring of slots: an array whose index wraps around. Read from an index on it is a list; moving the
index on moves the head of that list to its tail, and a slot written before the index moves on shows
at the tail. Slots may be empty, and empty ones do not show in the contents.
-/
import Mathlib.Data.List.OfFn
import Mathlib.Data.List.ReduceOption
import Mathlib.Algebra.Group.Fin.Basic

namespace UnixSysProg.Lib

variable {m : Nat} {α β : Type}

/-! ## Slots in order -/

/-- The index after `i`. -/
def nextSlot (i : Fin (m + 1)) : Fin (m + 1) := i + 1

/-- The slots in the order an index meets them from `i` on. -/
def ringFrom (q : Fin (m + 1) → β) (i : Fin (m + 1)) : List β := List.ofFn fun k => q (i + k)

/-- The slots but the one at `i`, in the order they are met after it. -/
def ringAfter (q : Fin (m + 1) → β) (i : Fin (m + 1)) : List β := List.ofFn fun k : Fin m => q (i + k.succ)

theorem ringFrom_eq (q : Fin (m + 1) → β) (i : Fin (m + 1)) : ringFrom q i = q i :: ringAfter q i := by
  rw [ringFrom, List.ofFn_succ, add_zero]
  rfl

/-- Moving on moves the head to the tail. -/
theorem ringFrom_next (q : Fin (m + 1) → β) (i : Fin (m + 1)) : ringFrom q (nextSlot i) = ringAfter q i ++ [q i] := by
  have hlast : i + 1 + Fin.last m = i := by rw [add_assoc, add_comm 1, Fin.last_add_one, add_zero]
  rw [ringFrom, nextSlot, List.ofFn_succ_last, hlast]
  congr 2
  funext k
  rw [add_assoc, add_comm 1, Fin.coeSucc_eq_succ]

theorem ringAfter_update (q : Fin (m + 1) → β) (i : Fin (m + 1)) (x : β) :
    ringAfter (Function.update q i x) i = ringAfter q i := by
  unfold ringAfter
  congr 1
  funext k
  refine Function.update_of_ne (fun h => ?_) _ _
  exact Fin.succ_ne_zero k (add_eq_left.1 h)

/-! ## Contents -/

/-- What the occupied slots hold, from `i` on. -/
def contents (q : Fin (m + 1) → Option α) (i : Fin (m + 1)) : List α := (ringFrom q i).reduceOption

theorem contents_skip {q : Fin (m + 1) → Option α} {i : Fin (m + 1)} (h : q i = none) :
    contents q (nextSlot i) = contents q i := by
  rw [contents, contents, ringFrom_next, ringFrom_eq, h, List.reduceOption_append]
  simp

/-- An occupied slot is the head; whatever it is overwritten with is met last. -/
theorem contents_turn {q : Fin (m + 1) → Option α} {i : Fin (m + 1)} {a : α} (h : q i = some a) :
    ∃ rest, contents q i = a :: rest ∧ ∀ x, contents (Function.update q i x) (nextSlot i) = rest ++ x.toList := by
  refine ⟨(ringAfter q i).reduceOption, ?_, ?_⟩
  · rw [contents, ringFrom_eq, h, List.reduceOption_cons_of_some]
  · intro x
    rw [contents, ringFrom_next, ringAfter_update, Function.update_self, List.reduceOption_append]
    cases x <;> rfl

/-- A ring filled from the start with as much of a list as fits. -/
theorem contents_fill (l : List α) : contents (fun i : Fin (m + 1) => l[i.val]?) 0 = l.take (m + 1) := by
  have hfill : ∀ (m : Nat) (l : List α), (List.ofFn fun i : Fin m => l[i.val]?).reduceOption = l.take m := by
    intro m
    induction m with
    | zero => intro l; simp
    | succ m ih =>
      intro l
      rw [List.ofFn_succ]
      cases l with
      | nil => simp
      | cons x l => simpa using ih l
  rw [contents, ringFrom, ← hfill]
  simp

/-! ## The next occupied slot -/

/-- The first occupied slot from `i` on, looking at no more than `fuel` slots. -/
def nextOccupied (q : Fin (m + 1) → Option α) : Nat → Fin (m + 1) → Fin (m + 1)
  | 0, i => i
  | fuel + 1, i => if (q i).isSome then i else nextOccupied q fuel (nextSlot i)

/-- Only which slots are occupied matters. -/
theorem nextOccupied_map (q : Fin (m + 1) → Option α) (f : Fin (m + 1) → α → β) : ∀ (fuel : Nat) (i : Fin (m + 1)),
    nextOccupied (fun j => (q j).map (f j)) fuel i = nextOccupied q fuel i
  | 0, _ => rfl
  | fuel + 1, i => by rw [nextOccupied, nextOccupied, Option.isSome_map, nextOccupied_map q f fuel]

theorem nextOccupied_of_mem {q : Fin (m + 1) → Option α} {a : α} : ∀ {fuel : Nat} {i : Fin (m + 1)},
    some a ∈ (ringFrom q i).take fuel →
      (∃ b, q (nextOccupied q fuel i) = some b) ∧ contents q (nextOccupied q fuel i) = contents q i
  | 0, _, h => by simp at h
  | fuel + 1, i, h => by
    rw [nextOccupied]
    split
    · rename_i hs
      exact ⟨Option.isSome_iff_exists.1 hs, rfl⟩
    · rename_i hs
      have hnone : q i = none := Option.not_isSome_iff_eq_none.1 hs
      rw [ringFrom_eq, hnone, List.take_succ_cons] at h
      have hnext : some a ∈ (ringFrom q (nextSlot i)).take fuel := by
        rw [ringFrom_next, List.take_append]
        exact List.mem_append_left _ ((List.mem_cons.1 h).resolve_left (by simp))
      obtain ⟨hocc, hcont⟩ := nextOccupied_of_mem hnext
      exact ⟨hocc, hcont.trans (contents_skip hnone)⟩

/-- Unless the ring is empty, one turn of it is enough, and what is skipped does not show. -/
theorem nextOccupied_spec {q : Fin (m + 1) → Option α} {i : Fin (m + 1)} (h : contents q i ≠ []) :
    (∃ b, q (nextOccupied q (m + 1) i) = some b) ∧ contents q (nextOccupied q (m + 1) i) = contents q i := by
  obtain ⟨a, ha⟩ := List.exists_mem_of_ne_nil _ h
  refine nextOccupied_of_mem (a := a) ?_
  rw [List.take_of_length_le (by simp [ringFrom])]
  exact List.reduceOption_mem_iff.1 ha

end UnixSysProg.Lib
