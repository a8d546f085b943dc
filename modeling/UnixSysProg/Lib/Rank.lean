/-
The rank of an element of a list by first occurrence: how many distinct elements occur before it
does. Extending the list does not change the ranks it has given, and a new element gets the next one,
so ranks number the distinct elements in the order in which they come in.
-/
import Mathlib.Data.Finset.Card
import Mathlib.Data.List.Basic

namespace UnixSysProg.Lib

variable {α : Type} [DecidableEq α]

/-- The number of distinct elements of `l` whose first occurrence comes before that of `a`. -/
def rank (l : List α) (a : α) : Nat := (l.toFinset.filter fun b => l.idxOf b < l.idxOf a).card

/-- An element already in the list keeps its rank. -/
theorem rank_append {l : List α} {a : α} (ha : a ∈ l) (k : List α) : rank (l ++ k) a = rank l a := by
  have hidx : ∀ b ∈ l, (l ++ k).idxOf b = l.idxOf b := fun b hb => List.idxOf_append_of_mem hb
  have hlt := List.idxOf_lt_length_of_mem ha
  unfold rank
  congr 1
  ext b
  simp only [Finset.mem_filter, List.mem_toFinset, List.mem_append, hidx a ha]
  constructor
  · rintro ⟨hb, hb'⟩
    have hbl : b ∈ l := by
      by_contra hnot
      rw [List.idxOf_append_of_notMem hnot] at hb'
      omega
    exact ⟨hbl, by rwa [hidx b hbl] at hb'⟩
  · rintro ⟨hb, hb'⟩
    exact ⟨.inl hb, by rwa [hidx b hb]⟩

/-- A new element is ranked after all there are. -/
theorem rank_concat_new {l : List α} {a : α} (ha : a ∉ l) : rank (l ++ [a]) a = l.toFinset.card := by
  have hself : (l ++ [a]).idxOf a = l.length := by
    rw [List.idxOf_append_of_notMem ha]; simp
  unfold rank
  congr 1
  ext b
  simp only [Finset.mem_filter, List.mem_toFinset, List.mem_append, List.mem_singleton, hself]
  constructor
  · rintro ⟨hb | rfl, hlt⟩
    · exact hb
    · rw [hself] at hlt; omega
  · intro hb
    exact ⟨.inl hb, by rw [List.idxOf_append_of_mem hb]; exact List.idxOf_lt_length_of_mem hb⟩

theorem rank_lt {l : List α} {a : α} (ha : a ∈ l) : rank l a < l.toFinset.card := by
  refine Finset.card_lt_card (Finset.filter_ssubset.2 ⟨a, List.mem_toFinset.2 ha, ?_⟩)
  exact lt_irrefl _

theorem card_toFinset_concat_mem {l : List α} {a : α} (ha : a ∈ l) :
    (l ++ [a]).toFinset.card = l.toFinset.card := by
  congr 1; ext b
  simp only [List.mem_toFinset, List.mem_append, List.mem_singleton]
  exact ⟨fun h => h.elim id (· ▸ ha), .inl⟩

theorem card_toFinset_concat_new {l : List α} {a : α} (ha : a ∉ l) :
    (l ++ [a]).toFinset.card = l.toFinset.card + 1 := by
  have : (l ++ [a]).toFinset = insert a l.toFinset := by ext b; simp
  rw [this, Finset.card_insert_of_notMem (by simpa using ha)]

end UnixSysProg.Lib
