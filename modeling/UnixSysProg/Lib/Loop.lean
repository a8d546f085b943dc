/-
Loops with a limit on their passes. A pass goes on with a new state or ends the loop with a result; when the
passes are used up the loop gives what it has. The rules: an invariant of the passes says something of the
result (`loop_invariant`), and a property of the result that only one kind of pass can spoil, for good, holds
exactly when the loop makes no such pass (`loop_iff_passes`).
-/
import Mathlib.Init

namespace UnixSysProg.Lib

variable {σ ρ : Type}

/-- The loop of `body`, for at most so many passes. -/
def loop (body : σ → Except ρ σ) (out : σ → ρ) : Nat → σ → ρ
  | 0, s => out s
  | n + 1, s =>
    match body s with
    | .error r => r
    | .ok s' => loop body out n s'

/-- Every pass that the loop makes meets `C`, of the number of passes left after it and the state that it
starts in. -/
def Passes (body : σ → Except ρ σ) (C : Nat → σ → Prop) : Nat → σ → Prop
  | 0, _ => True
  | n + 1, s => C n s ∧ ∀ s', body s = .ok s' → Passes body C n s'

/-- Whether the passes meet a condition is checked by running them. -/
instance decidablePasses (body : σ → Except ρ σ) (C : Nat → σ → Prop) [∀ n s, Decidable (C n s)] :
    ∀ (n : Nat) (s : σ), Decidable (Passes body C n s)
  | 0, _ => isTrue trivial
  | n + 1, s =>
    match h : body s with
    | .error _ => decidable_of_iff (C n s) (by simp [Passes, h])
    | .ok s' =>
      haveI := decidablePasses body C n s'
      decidable_of_iff (C n s ∧ Passes body C n s') (by simp [Passes, h])

variable {body : σ → Except ρ σ} {out : σ → ρ} {C : Nat → σ → Prop} {P : ρ → Prop}

theorem loop_succ_ok {n : Nat} {s s' : σ} (h : body s = .ok s') : loop body out (n + 1) s = loop body out n s' := by
  rw [loop, h]

theorem loop_succ_error {n : Nat} {s : σ} {r : ρ} (h : body s = .error r) : loop body out (n + 1) s = r := by
  rw [loop, h]

/-- What every pass keeps and every end turns into `P` holds of the result as `P`. -/
theorem loop_invariant {I : σ → Prop} (hok : ∀ s s', I s → body s = .ok s' → I s')
    (herror : ∀ s r, I s → body s = .error r → P r) (hout : ∀ s, I s → P (out s)) :
    ∀ (n : Nat) {s : σ}, I s → P (loop body out n s)
  | 0, s, h => hout s h
  | n + 1, s, h => by
    cases hb : body s with
    | error r =>
      rw [loop_succ_error hb]
      exact herror s r h hb
    | ok s' =>
      rw [loop_succ_ok hb]
      exact loop_invariant hok herror hout n (hok s s' h hb)

/-- When a pass that meets `C` keeps the invariant, which may speak of the passes left, and one that does not
spoils `P` for good, the result satisfies `P` exactly when all passes meet `C`. -/
theorem loop_iff_passes {I : Nat → σ → Prop} (hok : ∀ n s s', I (n + 1) s → C n s → body s = .ok s' → I n s')
    (herror : ∀ n s r, I (n + 1) s → body s = .error r → P r) (hout : ∀ s, I 0 s → P (out s))
    (hspoil : ∀ n s, I (n + 1) s → ¬ C n s → ¬ P (loop body out (n + 1) s)) :
    ∀ (n : Nat) {s : σ}, I n s → (P (loop body out n s) ↔ Passes body C n s)
  | 0, s, h => iff_of_true (hout s h) trivial
  | n + 1, s, h => by
    by_cases hc : C n s
    · rw [Passes]
      cases hb : body s with
      | error r =>
        rw [loop_succ_error hb]
        exact iff_of_true (herror n s r h hb) ⟨hc, fun s' hs' => by cases hs'⟩
      | ok s' =>
        rw [loop_succ_ok hb, loop_iff_passes hok herror hout hspoil n (hok n s s' h hc hb)]
        constructor
        · intro hrest
          refine ⟨hc, fun s'' hs'' => ?_⟩
          cases hs''
          exact hrest
        · rintro ⟨_, hrest⟩
          exact hrest s' rfl
    · exact iff_of_false (hspoil n s h hc) fun hp => hc hp.1

/-- A loop seen through `f` is that of another body when every pass is. -/
theorem loop_map {τ ρ' : Type} {body' : τ → Except ρ' τ} {out' : τ → ρ'} {f : τ → σ} {g : ρ' → ρ}
    (hok : ∀ t t', body' t = .ok t' → body (f t) = .ok (f t')) (herror : ∀ t r, body' t = .error r → body (f t) = .error (g r))
    (hout : ∀ t, g (out' t) = out (f t)) : ∀ (n : Nat) (t : τ), g (loop body' out' n t) = loop body out n (f t)
  | 0, t => hout t
  | n + 1, t => by
    cases hb : body' t with
    | error r => rw [loop_succ_error hb, loop_succ_error (herror t r hb)]
    | ok t' => rw [loop_succ_ok hb, loop_succ_ok (hok t t' hb), loop_map hok herror hout n t']

end UnixSysProg.Lib
