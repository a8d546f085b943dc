/-
The executor of `osh` (`a2/osh/executor.cpp`): a loop over the chain of at most twenty passes, each of which
makes the pipe of a command, forks it, waits for it or not, and skips the command after it or not. The child
is what the kernel says of it: whether it could be forked and what `waitpid` reports.
-/
import UnixSysProg.Osh.Command
import UnixSysProg.Lib.Loop
import UnixSysProg.Lib.Descriptors

namespace UnixSysProg.Osh

open UnixSysProg.Lib

def exitCommand : Word := ['e', 'x', 'i', 't']

/-! ## One command -/

namespace Command

variable (c : Command)

def isWaitForChild : Bool :=
  c.runNextCommand = .execOnfailure || c.runNextCommand = .execOnsuccess || c.runNextCommand = .execAny

def isSkipNextCommand : Bool :=
  (c.runNextCommand = .execOnfailure && c.rval = 0) || (c.runNextCommand = .execOnsuccess && c.rval ≠ 0)

/-- `isCommandExit`; `none` when `argv` is the null pointer that it reads through. -/
def isCommandExit : Option Bool := c.getExecutable.map (· = exitCommand)

end Command

/-! ## The shell process -/

/-- What the kernel answers in the pass over a command: to `pipe`, if it is called, the `errno` or success, to
`fork` whether there is a child, and to `waitpid`, if it is called, the status of the child, which is 0 when
the child has exited with 0 and not 0 otherwise. -/
structure Answers where
  pipe : Except Int Unit := .ok ()
  fork : Bool := true
  childRval : Int := 0

/-- `int pipeid[2]`: the read end, at `PipeReadIndex`, and the write end, at `PipeWriteIndex`. -/
structure PipeId where
  read : Int
  write : Int
  deriving DecidableEq

/-- A command that was forked: its position in the chain, the command as the child finds it, and the pipe that
was made for it in the pass. -/
structure Fork where
  position : Nat
  command : Command
  pipe : Option PipeId
  deriving DecidableEq

/-- The shell in `executeCommandList`: the chain from `curr` on, with the position of `curr` in it, the local
variables, the open descriptors of the process, its children that it has not waited for, and all that it
has forked. -/
structure Shell where
  curr : List Command
  position : Nat
  status : Int
  pipeid : PipeId
  fds : Finset Int
  children : List Nat
  exitShell : Bool
  forks : List Fork
  deriving DecidableEq

/-- How `executeCommandList` ends: it returns, or the process exits because it cannot fork, or it reads
through a null pointer. -/
inductive Ended
  | returned
  | exited
  | nullPointer
  deriving DecidableEq, Repr

namespace Executor

/-- `isCommandChainValid`, which does not look at the command. -/
def isCommandChainValid (_command : Command) : Bool := true

/-- What `pipeCommands` does to a command that writes into a pipe and to the one after it: the status, the two
commands, the pipe and the descriptors. `none` when there is no next command. -/
def pipeCommands (pipe : Except Int Unit) (command : Command) (next : List Command) (pipeid : PipeId) (fds : Finset Int) :
    Option (Int × Command × List Command × PipeId × Finset Int) :=
  if command.outputMode ≠ .pipe then some (0, command, next, pipeid, fds)
  else
    match pipe, next with
    | .error errno, _ => some (errno, command, next, pipeid, fds)
    | .ok (), [] => none
    | .ok (), n :: rest =>
      let (read, write) := openPipe fds
      some (0, { command with outputFid := write }, { n with inputFid := read } :: rest, ⟨read, write⟩,
        insert write (insert read fds))

/-- The rest of a pass, in the parent, once the child is there. -/
def parent (a : Answers) (piped : Bool) (curr : Command) (next : List Command) (s : Shell) : Shell :=
  let fds := if piped then s.fds.erase s.pipeid.write else s.fds
  -- wait for the child, or leave it behind
  let waits := curr.isWaitForChild || next.isEmpty
  let curr := if waits then { curr with rval := a.childRval } else curr
  let children := if waits then s.children else s.position :: s.children
  if curr.isSkipNextCommand then { s with fds, children, curr := next.tail, position := s.position + 2 }
  else { s with fds, children, curr := next, position := s.position + 1 }

/-- A pass of the loop, or the end of it. -/
def pass (kernel : Nat → Answers) (s : Shell) : Except (Ended × Shell) Shell :=
  match s.curr with
  | [] => .error (.returned, s)
  | curr :: next =>
    let a := kernel s.position
    match curr.isCommandExit with
    | none => .error (.nullPointer, s)
    | some true => .error (.returned, { s with exitShell := true })
    | some false =>
      let piped : Bool := curr.outputMode = .pipe
      match if piped then pipeCommands a.pipe curr next s.pipeid s.fds else some (s.status, curr, next, s.pipeid, s.fds) with
      | none => .error (.nullPointer, s)
      | some (status, curr, next, pipeid, fds) =>
        if a.fork then
          let made := if piped && a.pipe.isOk then some pipeid else none
          .ok (parent a piped curr next
            { s with status, pipeid, fds, forks := s.forks ++ [⟨s.position, curr, made⟩] })
        else .error (.exited, { s with status, pipeid, fds })

/-- The shell before the first pass: the array of the pipe holds whatever is in it. -/
def start (pipeid : PipeId) (fds : Finset Int) (command : List Command) : Shell where
  curr := command
  position := 0
  status := 0
  pipeid := pipeid
  fds := fds
  children := []
  exitShell := false
  forks := []

/-- `executeCommandList` in a process with these open descriptors. -/
def executeCommandList (kernel : Nat → Answers) (pipeid : PipeId) (fds : Finset Int) (command : List Command) :
    Ended × Shell :=
  let s := start pipeid fds command
  match command with
  | [] => (.returned, s)
  | c :: _ =>
    if isCommandChainValid c then loop (pass kernel) (fun s => (.returned, s)) 20 s
    else (.returned, { s with status := 1 })

/-! ## What a pass does -/

/-- The connector of a command that has ended with this status skips the next one. -/
def Skips (rval : Int) (c : Command) : Prop :=
  (c.runNextCommand = .execOnfailure ∧ rval = 0) ∨ (c.runNextCommand = .execOnsuccess ∧ rval ≠ 0)

instance (rval : Int) (c : Command) : Decidable (Skips rval c) := inferInstanceAs (Decidable (_ ∨ _))

@[simp] theorem skips_outputFid (rval : Int) (c : Command) (fid : Int) :
    Skips rval { c with outputFid := fid } ↔ Skips rval c := Iff.rfl

/-- A skip is decided by the status of the command itself: one that can skip has always been waited for. -/
theorem isSkipNextCommand_waited (rval : Int) (c : Command) (last : Bool) :
    (if c.isWaitForChild || last then { c with rval := rval } else c).isSkipNextCommand = decide (Skips rval c) := by
  rw [Bool.eq_iff_iff, decide_eq_true_eq]
  by_cases hwait : (c.isWaitForChild || last) = true
  · rw [if_pos hwait]
    simp [Command.isSkipNextCommand, Skips]
  · rw [if_neg hwait]
    simp only [Command.isWaitForChild, Bool.or_eq_true, decide_eq_true_eq, not_or] at hwait
    simp [Command.isSkipNextCommand, Skips, hwait]

theorem parent_eq (a : Answers) (piped : Bool) (c : Command) (next : List Command) (s : Shell) :
    parent a piped c next s = { s with
      fds := if piped then s.fds.erase s.pipeid.write else s.fds
      children := if c.isWaitForChild || next.isEmpty then s.children else s.position :: s.children
      curr := if Skips a.childRval c then next.tail else next
      position := s.position + if Skips a.childRval c then 2 else 1 } := by
  unfold parent
  simp only [isSkipNextCommand_waited, decide_eq_true_eq]
  by_cases hskips : Skips a.childRval c
  · simp only [if_pos hskips]
  · simp only [if_neg hskips]

/-- The ways of a pass to go on: with a command that writes into no pipe, with one that does, or with one that
should but for which none could be made. -/
inductive Passed (kernel : Nat → Answers) (s : Shell) : Shell → Prop
  | plain {c : Command} {next : List Command} : s.curr = c :: next → c.isCommandExit = some false →
      c.outputMode ≠ .pipe → (kernel s.position).fork = true →
      Passed kernel s (parent (kernel s.position) false c next { s with forks := s.forks ++ [⟨s.position, c, none⟩] })
  | piped {c n : Command} {rest : List Command} : s.curr = c :: n :: rest → c.isCommandExit = some false →
      c.outputMode = .pipe → (kernel s.position).pipe = .ok () → (kernel s.position).fork = true →
      Passed kernel s (parent (kernel s.position) true { c with outputFid := (openPipe s.fds).2 }
        ({ n with inputFid := (openPipe s.fds).1 } :: rest)
        { s with
          status := 0
          pipeid := ⟨(openPipe s.fds).1, (openPipe s.fds).2⟩
          fds := insert (openPipe s.fds).2 (insert (openPipe s.fds).1 s.fds)
          forks := s.forks ++ [⟨s.position, { c with outputFid := (openPipe s.fds).2 },
            some ⟨(openPipe s.fds).1, (openPipe s.fds).2⟩⟩] })
  | unpiped {c : Command} {next : List Command} {errno : Int} : s.curr = c :: next → c.isCommandExit = some false →
      c.outputMode = .pipe → (kernel s.position).pipe = .error errno → (kernel s.position).fork = true →
      Passed kernel s (parent (kernel s.position) true c next
        { s with status := errno, forks := s.forks ++ [⟨s.position, c, none⟩] })

/-- How a pass ends the loop: nothing has been forked in it, and the loop returns only at the end of the chain
or at an `exit`. -/
structure Stopped (s : Shell) (e : Ended) (t : Shell) : Prop where
  forks : t.forks = s.forks
  children : t.children = s.children
  returned : e = .returned → t.fds = s.fds ∧ ∀ c ∈ s.curr.head?, c.isCommandExit = some true

variable {kernel : Nat → Answers} {s s' t : Shell} {e : Ended}

theorem Passed.pass (h : Passed kernel s s') : pass kernel s = .ok s' := by
  cases h with
  | plain hcurr hexit hmode hfork => simp [Executor.pass, hcurr, hexit, hmode, hfork]
  | piped hcurr hexit hmode hpipe hfork =>
    simp [Executor.pass, hcurr, hexit, hmode, hfork, hpipe, pipeCommands, Except.isOk, Except.toBool]
  | unpiped hcurr hexit hmode hpipe hfork =>
    simp [Executor.pass, hcurr, hexit, hmode, hfork, hpipe, pipeCommands, Except.isOk, Except.toBool]

/-- A pass has no other way to go on. -/
theorem pass_ok (h : pass kernel s = .ok s') : Passed kernel s s' := by
  have hsome : ∃ s'', Passed kernel s s'' := by
    unfold pass at h
    split at h
    · cases h
    · rename_i c next hcurr
      split at h
      · cases h
      · cases h
      · rename_i hexit
        by_cases hmode : c.outputMode = .pipe
        · cases hpipe : (kernel s.position).pipe with
          | error errno =>
            by_cases hfork : (kernel s.position).fork = true
            · exact ⟨_, .unpiped hcurr hexit hmode hpipe hfork⟩
            · simp [hmode, hpipe, hfork, pipeCommands] at h
          | ok _ =>
            cases next with
            | nil => simp [hmode, hpipe, pipeCommands] at h
            | cons n rest =>
              by_cases hfork : (kernel s.position).fork = true
              · exact ⟨_, .piped hcurr hexit hmode hpipe hfork⟩
              · simp [hmode, hpipe, hfork, pipeCommands] at h
        · by_cases hfork : (kernel s.position).fork = true
          · exact ⟨_, .plain hcurr hexit hmode hfork⟩
          · simp [hmode, hfork] at h
  obtain ⟨s'', hpassed⟩ := hsome
  rw [hpassed.pass] at h
  cases h
  exact hpassed

/-- Without a child for a command the shell exits. -/
theorem pass_exited {c : Command} {next : List Command} (hcurr : s.curr = c :: next) (hexit : c.isCommandExit = some false)
    (hmode : c.outputMode ≠ .pipe) (hfork : ¬ (kernel s.position).fork = true) : ∃ t, pass kernel s = .error (.exited, t) := by
  simp [pass, hcurr, hexit, hmode, hfork]

theorem pass_error (h : pass kernel s = .error (e, t)) : Stopped s e t := by
  unfold pass at h
  split at h
  · rename_i hcurr
    cases h
    exact ⟨rfl, rfl, fun _ => ⟨rfl, by simp [hcurr]⟩⟩
  · rename_i c next hcurr
    split at h
    · cases h
      exact ⟨rfl, rfl, fun he => by cases he⟩
    · rename_i hexit
      cases h
      exact ⟨rfl, rfl, fun _ => ⟨rfl, by simp [hcurr, hexit]⟩⟩
    · dsimp only at h
      split at h
      · cases h
        exact ⟨rfl, rfl, fun he => by cases he⟩
      · split at h
        · cases h
        · cases h
          exact ⟨rfl, rfl, fun he => by cases he⟩

theorem executeCommandList_eq (kernel : Nat → Answers) (pipeid : PipeId) (fds : Finset Int) (command : List Command) :
    executeCommandList kernel pipeid fds command =
      loop (pass kernel) (fun s => (.returned, s)) 20 (start pipeid fds command) := by
  cases command with
  | nil => rfl
  | cons c command => rfl

end Executor

end UnixSysProg.Osh
