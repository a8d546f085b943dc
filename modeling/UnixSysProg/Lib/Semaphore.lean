/-
Counting semaphores shared by threads. A thread's next operation waits for or posts one of them, and a
weight says how many permits of a semaphore a thread at a given place holds. A step that takes as many
permits as it adds to the thread keeps the total, and a semaphore that starts with one permit is a mutex.
-/
import UnixSysProg.Lib.Tally

namespace UnixSysProg.Lib

variable {σ : Type} [DecidableEq σ]

/-- `sem_wait` and `sem_post`. -/
inductive SemOp (σ : Type)
  | wait (m : σ)
  | post (m : σ)
  deriving DecidableEq

namespace SemOp

variable {op : SemOp σ} {sem sem' : σ → Nat} {m : σ}

/-- The values of the semaphores after the operation, unless it blocks. -/
def apply (op : SemOp σ) (sem : σ → Nat) : Option (σ → Nat) :=
  match op with
  | wait m => if 0 < sem m then some (Function.update sem m (sem m - 1)) else none
  | post m => some (Function.update sem m (sem m + 1))

/-- The permits of `m` that the operation takes. -/
def waits (op : SemOp σ) (m : σ) : Nat := if op = wait m then 1 else 0

/-- The permits of `m` that the operation gives back. -/
def posts (op : SemOp σ) (m : σ) : Nat := if op = post m then 1 else 0

theorem apply_post (sem : σ → Nat) (m : σ) : ∃ sem', (post m).apply sem = some sem' := ⟨_, rfl⟩

theorem apply_wait (h : 0 < sem m) : ∃ sem', (wait m).apply sem = some sem' := ⟨_, if_pos h⟩

theorem pos_of_apply_wait (h : (wait m).apply sem = some sem') : 0 < sem m := by
  by_contra hm
  rw [apply, if_neg hm] at h
  cases h

theorem apply_balance (h : op.apply sem = some sem') (m : σ) : sem' m + op.waits m = sem m + op.posts m := by
  cases op with
  | wait k =>
    have hpos := pos_of_apply_wait h
    rw [apply, if_pos hpos] at h
    cases h
    by_cases hk : m = k
    · subst hk
      simp [waits, posts]
      omega
    · simp [waits, posts, hk, Ne.symm hk]
  | post k =>
    cases h
    by_cases hk : m = k
    · subst hk
      simp [waits, posts]
    · simp [waits, posts, hk, Ne.symm hk]

/-- A thread that takes what it comes to hold and gives back what it held keeps the number of permits,
free or held, whatever the threads outside the tally hold. -/
theorem permits_update {ι α : Type} [Fintype ι] [DecidableEq ι] {w : α → Nat} {f : ι → α} {i : ι} {x : α}
    {rest total : Nat} (h : sem m + tally w f + rest = total) (hop : op.apply sem = some sem')
    (hx : w x + op.posts m = w (f i) + op.waits m) : sem' m + tally w (Function.update f i x) + rest = total := by
  have hsem := apply_balance hop m
  have htally := tally_update w f i x
  omega

end SemOp

end UnixSysProg.Lib
