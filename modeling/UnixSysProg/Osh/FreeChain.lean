/-
`freeCommandChain` (`command.h`), on commands in memory. The loop writes the command after the deleted one
to the `next` of the first command instead of stepping to it, so that the next pass comes back to the
command it has just deleted. Only the chain without a later command is freed.
-/
import UnixSysProg.Lib.Links
import UnixSysProg.Osh.Command

namespace UnixSysProg.Osh

open UnixSysProg.Lib

/-- Commands in memory by their addresses: their `next`, and the addresses deleted so far, in order. -/
structure Commands (α : Type) where
  next : α → Option α
  deleted : List α

/-- The loop has not ended in the passes it was given, or it has gone on with a command that is deleted. -/
inductive Fault (α : Type)
  | passes
  | deleted (command : α)

variable {α : Type} [DecidableEq α]

namespace Commands

/-- The loop of `freeCommandChain`, called on the command at `this`. -/
def freeLoop (this : α) : Nat → Commands α → Option α → Except (Fault α) (Commands α)
  | _, commands, none => .ok commands
  | 0, _, some _ => .error .passes
  | passes + 1, commands, some nextCmd =>
    if nextCmd ∈ commands.deleted then .error (.deleted nextCmd)
    else
      let temp := commands.next nextCmd
      let commands := { commands with deleted := commands.deleted ++ [nextCmd] }
      -- `next = temp`, the member of the command at `this`
      freeLoop this passes { commands with next := Function.update commands.next this temp } (some nextCmd)

/-- `freeCommandChain`, for at most so many passes of its loop. -/
def freeCommandChain (passes : Nat) (commands : Commands α) (this : α) : Except (Fault α) (Commands α × Status) :=
  match freeLoop this passes commands (commands.next this) with
  | .error fault => .error fault
  | .ok commands => .ok ({ commands with next := Function.update commands.next this none }, .success)

/-- A later command is deleted in the first pass and met again in the second. -/
theorem freeLoop_some (this : α) {commands : Commands α} {nextCmd : α} (h : nextCmd ∉ commands.deleted) :
    ∀ passes : Nat, freeLoop this passes commands (some nextCmd) =
      .error (if passes ≤ 1 then .passes else .deleted nextCmd)
  | 0 => rfl
  | 1 => by
    rw [freeLoop, if_neg h]
    rfl
  | passes + 2 => by
    rw [freeLoop, if_neg h, freeLoop, if_pos (by simp), if_neg (by omega)]

theorem freeCommandChain_some {commands : Commands α} {this nextCmd : α} (hnext : commands.next this = some nextCmd)
    (h : nextCmd ∉ commands.deleted) (passes : Nat) :
    freeCommandChain passes commands this = .error (if passes ≤ 1 then .passes else .deleted nextCmd) := by
  rw [freeCommandChain, hnext, freeLoop_some this h]

theorem freeCommandChain_none {commands : Commands α} {this : α} (hnext : commands.next this = none) (passes : Nat) :
    freeCommandChain passes commands this =
      .ok ({ commands with next := Function.update commands.next this none }, .success) := by
  rw [freeCommandChain, hnext]
  cases passes <;> rfl

end Commands

/-- An acyclic chain of commands: the first one and those that follow it. -/
structure CommandChain (α : Type) where
  next : α → Option α
  first : α
  later : List α
  linked : Path next (next first) later none
  acyclic : (first :: later).Nodup

/-- For some number of passes the call on the first command ends, has deleted every later command once and
touched none after that, and leaves the first one alone. -/
def CommandChain.FreedOnce (chain : CommandChain α) : Prop :=
  ∃ passes commands, Commands.freeCommandChain passes ⟨chain.next, []⟩ chain.first = .ok (commands, .success) ∧
    commands.deleted.Perm chain.later ∧ commands.next chain.first = none

/-- For every acyclic chain: it is freed if and only if it has no later command. -/
theorem CommandChain.freedOnce_iff (chain : CommandChain α) : chain.FreedOnce ↔ chain.later = [] := by
  have hstart := chain.linked.start_eq
  constructor
  · rintro ⟨passes, commands, hfree, _⟩
    cases hnext : chain.next chain.first with
    | none =>
      rw [hnext] at hstart
      exact List.head?_eq_none_iff.1 hstart.symm
    | some nextCmd =>
      rw [Commands.freeCommandChain_some hnext List.not_mem_nil] at hfree
      cases hfree
  · intro hlater
    rw [hlater] at hstart
    refine ⟨0, _, Commands.freeCommandChain_none hstart 0, ?_, Function.update_self ..⟩
    rw [hlater]

/-- Two commands: the second one is deleted and read again. -/
theorem not_freedOnce_two : ∃ chain : CommandChain Nat, chain.later = [1] ∧ ¬ chain.FreedOnce ∧
    ∀ passes, 2 ≤ passes → Commands.freeCommandChain passes ⟨chain.next, []⟩ chain.first = .error (.deleted 1) := by
  have hfault : ∀ passes, Commands.freeCommandChain passes ⟨fun i => if i = 0 then some 1 else none, []⟩ 0 =
      .error (if passes ≤ 1 then .passes else .deleted 1) :=
    Commands.freeCommandChain_some rfl List.not_mem_nil
  refine ⟨⟨fun i => if i = 0 then some 1 else none, 0, [1], ⟨rfl, rfl⟩, by decide⟩, rfl, ?_, fun passes hle => ?_⟩
  · rintro ⟨passes, commands, hfree, _⟩
    rw [hfault] at hfree
    cases hfree
  · rw [hfault, if_neg (by omega)]

end UnixSysProg.Osh
