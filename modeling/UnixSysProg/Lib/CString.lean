/-
Strings in a flat memory that end at a terminator: writing one, and reading one back within a number of
cells.
-/
import Mathlib.Data.List.Basic

namespace UnixSysProg.Lib

variable {α : Type}

/-! ## Cells -/

/-- The memory with `xs` written from address `addr` on. -/
def put (mem : Nat → α) (addr : Nat) (xs : List α) (a : Nat) : α :=
  if addr ≤ a then xs[a - addr]?.getD (mem a) else mem a

/-- The cells from address `addr` on hold `xs`. -/
def Holds (mem : Nat → α) (addr : Nat) (xs : List α) : Prop := ∀ k x, xs[k]? = some x → mem (addr + k) = x

variable {mem mem' : Nat → α} {addr : Nat} {xs ys : List α}

theorem put_below {a : Nat} (h : a < addr) : put mem addr xs a = mem a := if_neg (Nat.not_le.2 h)

theorem holds_put : Holds (put mem addr xs) addr xs := by
  intro k x hx
  simp [put, hx]

theorem Holds.congr (h : Holds mem addr xs) (hmem : ∀ a, addr ≤ a → a < addr + xs.length → mem' a = mem a) :
    Holds mem' addr xs := by
  intro k x hx
  obtain ⟨hk, -⟩ := List.getElem?_eq_some_iff.1 hx
  rw [hmem _ (Nat.le_add_right ..) (Nat.add_lt_add_left hk _)]
  exact h k x hx

theorem Holds.of_prefix (h : Holds mem addr ys) (hxs : xs <+: ys) : Holds mem addr xs := by
  intro k x hx
  obtain ⟨zs, rfl⟩ := hxs
  obtain ⟨hk, -⟩ := List.getElem?_eq_some_iff.1 hx
  exact h k x (by rw [List.getElem?_append_left hk, hx])

theorem holds_append : Holds mem addr (xs ++ ys) ↔ Holds mem addr xs ∧ Holds mem (addr + xs.length) ys := by
  constructor
  · intro h
    refine ⟨h.of_prefix (List.prefix_append ..), fun k y hy => ?_⟩
    rw [Nat.add_assoc]
    exact h _ y (by rw [List.getElem?_append_right (Nat.le_add_right ..), Nat.add_sub_cancel_left, hy])
  · rintro ⟨hxs, hys⟩ k x hx
    by_cases hk : k < xs.length
    · exact hxs k x (by rwa [List.getElem?_append_left hk] at hx)
    · rw [List.getElem?_append_right (Nat.not_lt.1 hk)] at hx
      have hy := hys _ x hx
      rwa [Nat.add_assoc, Nat.add_sub_cancel' (Nat.not_lt.1 hk)] at hy

theorem Holds.cons {x : α} (h : Holds mem addr (x :: xs)) : mem addr = x ∧ Holds mem (addr + 1) xs :=
  ⟨h 0 x rfl, (holds_append.1 (show Holds mem addr ([x] ++ xs) from h)).2⟩

/-- Writing on behind what is held. -/
theorem Holds.put_append (h : Holds mem addr xs) : Holds (put mem (addr + xs.length) ys) addr (xs ++ ys) :=
  holds_append.2 ⟨h.congr fun _ _ ha => put_below ha, holds_put⟩

/-! ## Terminated strings -/

variable [DecidableEq α] (nul : α)

/-- The string at `addr`, if its terminator is among the next `fuel` cells. -/
def cstring (mem : Nat → α) : Nat → Nat → Option (List α)
  | 0, _ => none
  | fuel + 1, addr => if mem addr = nul then some [] else (cstring mem fuel (addr + 1)).map (mem addr :: ·)

variable {nul}

/-- Cells without a terminator are part of the string. -/
theorem cstring_append (hnul : nul ∉ xs) {fuel : Nat} : ∀ {addr : Nat}, Holds mem addr xs →
    cstring nul mem (xs.length + fuel) addr = (cstring nul mem fuel (addr + xs.length)).map (xs ++ ·) := by
  induction xs with
  | nil => intro addr _; simp
  | cons x xs ih =>
    intro addr h
    obtain ⟨hx, hxs⟩ := h.cons
    have hne : mem addr ≠ nul := fun he => hnul (by simp [← hx, he])
    rw [List.length_cons, Nat.add_right_comm, cstring, if_neg hne, ih (List.not_mem_of_not_mem_cons hnul) hxs, Option.map_map, hx,
      Nat.add_assoc addr, Nat.add_comm 1]
    rfl

/-- A string with its terminator. -/
theorem cstring_holds (hnul : nul ∉ xs) {fuel : Nat} (h : Holds mem addr (xs ++ [nul])) (hfuel : xs.length < fuel) :
    cstring nul mem fuel addr = some xs := by
  obtain ⟨hxs, hend⟩ := holds_append.1 h
  obtain ⟨k, rfl⟩ := Nat.exists_eq_add_of_lt hfuel
  rw [Nat.add_assoc, cstring_append hnul hxs, cstring, if_pos hend.cons.1]
  simp

end UnixSysProg.Lib
