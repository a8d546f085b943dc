/-
Sessions of `osh` (`a2/osh/osh.cpp`): the loop that reads a line, parses it and executes what is accepted, until
a line has come to an `exit` or 23 lines have been read. The parser and the process are the same for all lines,
so that what a line leaves behind in them is there for the next one.
-/
import UnixSysProg.Osh.Balance
import UnixSysProg.Osh.History

namespace UnixSysProg.Osh

open UnixSysProg.Lib

/-- How `run` ends: it returns, a line keeps the parser busy, or the execution of one ends the process. -/
inductive RunEnded
  | returned
  | parsing
  | executing (e : Ended)
  deriving DecidableEq

/-- The `osh` object and its process between two lines: the lines read, the parser, the `exitShell` of the
executor, the last status, the open descriptors, and the children not waited for and the commands forked, each
with the number of its line. -/
structure Session where
  lines : Nat
  parser : Parser
  exitShell : Bool
  status : Status
  fds : Finset Int
  children : List (Nat × Nat)
  forks : List (Nat × Fork)

namespace Session

def start (fds : Finset Int) : Session := ⟨0, {}, false, .success, fds, [], []⟩

/-- The session once line `n` has been read and parsed. -/
def parsed (s : Session) (result : Result) : Session :=
  { s with lines := s.lines + 1, parser := result.parser, status := result.status }

/-- The session when `executeCommandList` has come to its end, for line `n`. -/
def executed (s : Session) (n : Nat) (t : Shell) : Session :=
  { s with
    exitShell := s.exitShell || t.exitShell
    fds := t.fds
    children := s.children ++ t.children.map (n, ·)
    forks := s.forks ++ t.forks.map (n, ·) }

/-- `readInput`, for line `n`: behind the end of the input `getline` leaves the line empty. -/
def readInput (input : List Word) (n : Nat) : Word := input.getD n []

/-- A pass of the loop, or the end of it. -/
def pass (fuel : Nat) (input : List Word) (kernel : Nat → Nat → Answers) (pipeid : Nat → PipeId) (s : Session) :
    Except (RunEnded × Session) Session :=
  if s.exitShell then .error (.returned, s)
  else
    match s.parser.parseLine fuel (readInput input s.lines) with
    | none => .error (.parsing, s)
    | some result =>
      match result.status with
      -- "Ambiguous command format"
      | .fail => .ok (s.parsed result)
      | .success =>
        match Executor.executeCommandList (kernel s.lines) (pipeid s.lines) s.fds result.command with
        | (.returned, t) => .ok ((s.parsed result).executed s.lines t)
        | (e, t) => .error (.executing e, (s.parsed result).executed s.lines t)

/-- `run`, on a process with these open descriptors. -/
def run (fuel : Nat) (input : List Word) (kernel : Nat → Nat → Answers) (pipeid : Nat → PipeId) (fds : Finset Int) :
    RunEnded × Session :=
  loop (pass fuel input kernel pipeid) (fun s => (.returned, s)) 23 (start fds)

variable {fuel : Nat} {input : List Word} {kernel : Nat → Nat → Answers} {pipeid : Nat → PipeId} {s s' : Session}
  {fds : Finset Int}

/-- A pass that goes on has read a line and rejected it, or executed it to the end of its chain or an `exit`. -/
inductive Passed (fuel : Nat) (input : List Word) (kernel : Nat → Nat → Answers) (pipeid : Nat → PipeId) (s : Session) :
    Session → Prop
  | rejected {result : Result} : s.exitShell = false →
      s.parser.parseLine fuel (readInput input s.lines) = some result → result.status = .fail →
      Passed fuel input kernel pipeid s (s.parsed result)
  | executed {result : Result} {t : Shell} : s.exitShell = false →
      s.parser.parseLine fuel (readInput input s.lines) = some result → result.status = .success →
      Executor.executeCommandList (kernel s.lines) (pipeid s.lines) s.fds result.command = (.returned, t) →
      Passed fuel input kernel pipeid s ((s.parsed result).executed s.lines t)

theorem Passed.pass (h : Passed fuel input kernel pipeid s s') : pass fuel input kernel pipeid s = .ok s' := by
  cases h with
  | rejected hexit hparse hstatus => simp [Session.pass, hexit, hparse, hstatus]
  | executed hexit hparse hstatus hexecute => simp [Session.pass, hexit, hparse, hstatus, hexecute]

theorem pass_ok (h : pass fuel input kernel pipeid s = .ok s') : Passed fuel input kernel pipeid s s' := by
  unfold pass at h
  split_ifs at h with hexit
  split at h
  · cases h
  · rename_i result hparse
    split at h
    · rename_i hstatus
      cases h
      exact .rejected (by simpa using hexit) hparse hstatus
    · rename_i hstatus
      split at h
      · rename_i t hexecute
        cases h
        exact .executed (by simpa using hexit) hparse hstatus hexecute
      · cases h

/-- What ends the loop: an `exit` has been executed, the parser does not return, or the execution of a line has
not returned. -/
theorem pass_error {r : RunEnded × Session} (h : pass fuel input kernel pipeid s = .error r) :
    (s.exitShell = true ∧ r = (.returned, s)) ∨ r = (.parsing, s) ∨ ∃ result e t,
      s.parser.parseLine fuel (readInput input s.lines) = some result ∧ result.status = .success ∧
        Executor.executeCommandList (kernel s.lines) (pipeid s.lines) s.fds result.command = (e, t) ∧ e ≠ .returned ∧
        r = (.executing e, (s.parsed result).executed s.lines t) := by
  unfold pass at h
  split_ifs at h with hexit
  · cases h
    exact .inl ⟨hexit, rfl⟩
  · right
    split at h
    · cases h
      exact .inl rfl
    · rename_i result hparse
      split at h
      · cases h
      · rename_i hstatus
        split at h
        · cases h
        · rename_i e t hne hexecute
          cases h
          exact .inr ⟨result, e, t, hparse, hstatus, hexecute, hne, rfl⟩

end Session

/-! ## What a session leaves behind -/

def PipesLast (chain : List Command) : Prop := ∀ c ∈ chain, c.outputMode = .pipe → c.runNextCommand = .redirPipe

/-- The connector behind a segment is the connector of its command, whatever its redirections name. -/
theorem Segment.command_connector {fed : Bool} {seg : Segment} {c : Command} {connector : Connector}
    (h : seg.command fed = some c) (hend : seg.ending = .connector connector) :
    c.runNextCommand = connector.runNextCommand := by
  unfold command at h
  split_ifs at h
  obtain ⟨c₁, _, hfinish⟩ := Option.bind_eq_some_iff.1 h
  rw [hend] at hfinish
  cases connector with
  | pipe =>
    simp only [Command.finish] at hfinish
    split_ifs at hfinish
    cases hfinish
    rfl
  | any | onSuccess | onFailure =>
    cases hfinish
    rfl

/-- Of any line, on any parser, the chain has its writers and the commands that are waited for told apart by
their connectors. -/
theorem parse_connected {p : Parser} {segs : List Segment} {result : Result} (h : parse p segs = some result)
    (hlinked : Linked segs) : Connected result.command ∧ PipesLast result.command := by
  induction segs generalizing p result with
  | nil =>
    cases h
    exact ⟨trivial, by simp [PipesLast]⟩
  | cons seg segs ih =>
    by_cases hblank : p.Blank seg
    · rw [parse, if_pos hblank] at h
      cases h
      exact ⟨trivial, by simp [PipesLast]⟩
    · rw [parse, if_neg hblank] at h
      cases hcommand : seg.command p.fed with
      | none =>
        rw [hcommand] at h
        cases h
        exact ⟨trivial, by simp [PipesLast]⟩
      | some c =>
        rw [hcommand] at h
        dsimp only at h
        split_ifs at h with hword
        obtain ⟨rest, hrest, rfl⟩ := Option.map_eq_some_iff.1 h
        obtain ⟨hconnected, hpipes⟩ := ih hrest hlinked.2
        have hdenotes := Segment.denotes_of_command hcommand
        -- a rejected line has no chain
        cases hstatus : rest.status with
        | fail =>
          have hnil : rest.command = [] := command_of_fail hrest hstatus
          simp [Result.prepend, hstatus, hnil, Connected, PipesLast]
        | success =>
          simp only [Result.prepend, hstatus, List.singleton_append]
          refine ⟨⟨fun hne => ?_, hconnected⟩, List.forall_mem_cons.2 ⟨fun hmode => ?_, hpipes⟩⟩
          · obtain ⟨connector, hend⟩ := hlinked.1 fun hnil => hne (by subst hnil; cases hrest; rfl)
            have hrun := Segment.command_connector hcommand hend
            cases connector with
            | pipe => exact .inl (hdenotes.toPipe.2 (by simp [Segment.piped, hend]))
            | any | onSuccess | onFailure =>
              exact .inr (by simp [Command.isWaitForChild, hrun, Connector.runNextCommand])
          · have hpiped : seg.ending = .connector .pipe := by simpa [Segment.piped] using hdenotes.toPipe.1 hmode
            exact Segment.command_connector hcommand hpiped

namespace Executor

/-- How many of the commands forked write into a pipe. -/
def writers (forks : List Fork) : Nat := forks.countP fun f => f.command.outputMode = .pipe

/-- The process still has its descriptors, and one more, with one more child, for each writer that it has
forked. -/
structure Accounted (fds : Finset Int) (s : Shell) : Prop where
  kept : fds ⊆ s.fds
  descriptors : s.fds.card = fds.card + writers s.forks
  children : s.children.length = writers s.forks

variable {kernel : Nat → Answers} {s s' : Shell} {fds : Finset Int}

theorem Passed.accounted (hkernel : Succeeds kernel) (h : Passed kernel s s') (hs : Accounted fds s)
    (hconnected : Connected s.curr) (hpipes : PipesLast s.curr) :
    Accounted fds s' ∧ Connected s'.curr ∧ PipesLast s'.curr := by
  cases h with
  | @plain c next hcurr hexit hmode _ =>
    rw [hcurr] at hconnected hpipes
    -- it is waited for: no child is added
    have hwait : (c.isWaitForChild || next.isEmpty) = true := by
      cases next with
      | nil => simp
      | cons d rest => simpa using (hconnected.1 (by simp)).resolve_left hmode
    have hwriters : writers (s.forks ++ [⟨s.position, c, none⟩]) = writers s.forks := by
      simp [writers, List.countP_append, hmode]
    rw [parent_eq]
    refine ⟨⟨hs.kept, ?_, ?_⟩, ?_⟩
    · simpa [hwriters] using hs.descriptors
    · simpa [hwriters, hwait] using hs.children
    · have hnext : PipesLast next := fun d hd => hpipes d (List.mem_cons_of_mem _ hd)
      dsimp only
      split
      · refine ⟨?_, fun d hd => hnext d (List.mem_of_mem_tail hd)⟩
        cases next with
        | nil => trivial
        | cons d rest => exact hconnected.2.2
      · exact ⟨hconnected.2, hnext⟩
  | @piped c n rest hcurr hexit hmode _ _ =>
    rw [hcurr] at hconnected hpipes
    have hrun : c.runNextCommand = .redirPipe := hpipes c (by simp) hmode
    have hskips : ¬ Skips (kernel s.position).childRval c := by simp [Skips, hrun]
    -- the write end is closed again, and the read end is the descriptor that stays
    have hnotMem : (openPipe s.fds).2 ∉ insert (openPipe s.fds).1 s.fds := by
      rw [Finset.mem_insert, not_or]
      exact ⟨openPipe_write_ne_read, openPipe_write_notMem⟩
    rw [parent_eq]
    refine ⟨⟨?_, ?_, ?_⟩, ?_⟩
    · simp only [if_true, Finset.erase_insert hnotMem]
      exact hs.kept.trans (Finset.subset_insert _ _)
    · simp only [if_true, Finset.erase_insert hnotMem, Finset.card_insert_of_notMem openPipe_read_notMem]
      simp [writers, List.countP_append, hmode, hs.descriptors, Nat.add_assoc]
    · simp [writers, List.countP_append, hmode, Command.isWaitForChild, hrun, hs.children]
    · simp only [skips_outputFid, if_neg hskips]
      have hnext : PipesLast (n :: rest) := fun d hd => hpipes d (List.mem_cons_of_mem _ hd)
      refine ⟨hconnected.2, ?_⟩
      rintro d hd hmode'
      rcases List.mem_cons.1 hd with rfl | hd
      · exact hnext n (by simp) hmode'
      · exact hnext d (List.mem_cons_of_mem _ hd) hmode'
  | unpiped _ _ _ hpipe _ =>
    rw [(hkernel _).1] at hpipe
    cases hpipe

/-- Whatever chain of the parser's: when it has been executed, the process has been charged for its writers and
for nothing else. -/
theorem executeCommandList_accounted (hkernel : Succeeds kernel) {pipeid : PipeId} {chain : List Command} {t : Shell}
    (hconnected : Connected chain) (hpipes : PipesLast chain)
    (h : executeCommandList kernel pipeid fds chain = (.returned, t)) : Accounted fds t := by
  rw [executeCommandList_eq] at h
  have hresult : ∀ r : Ended × Shell, loop (pass kernel) (fun s => (.returned, s)) 20 (start pipeid fds chain) = r →
      r.1 = .returned → Accounted fds r.2 := by
    rintro r rfl
    refine loop_invariant (I := fun s => Accounted fds s ∧ Connected s.curr ∧ PipesLast s.curr)
      (P := fun r : Ended × Shell => r.1 = .returned → Accounted fds r.2) ?_ ?_ ?_ 20 ?_
    · exact fun s s' hs hpass => (pass_ok hpass).accounted hkernel hs.1 hs.2.1 hs.2.2
    · rintro s ⟨e, t⟩ ⟨hs, _⟩ hpass hreturned
      have hstopped := pass_error hpass
      have hfds := (hstopped.returned hreturned).1
      refine ⟨?_, ?_, ?_⟩
      · exact hfds ▸ hs.kept
      · rw [hfds, hstopped.forks, hs.descriptors]
      · rw [hstopped.children, hstopped.forks, hs.children]
    · exact fun s hs _ => hs.1
    · exact ⟨⟨subset_rfl, rfl, rfl⟩, hconnected, hpipes⟩
  exact hresult _ h rfl

end Executor

namespace Session

/-- How many of the commands that the session has forked write into a pipe. -/
def writers (s : Session) : Nat := Executor.writers (s.forks.map Prod.snd)

structure Accounted (fds : Finset Int) (s : Session) : Prop where
  kept : fds ⊆ s.fds
  descriptors : s.fds.card = fds.card + s.writers
  children : s.children.length = s.writers

variable {fuel : Nat} {input : List Word} {kernel : Nat → Nat → Answers} {pipeid : Nat → PipeId} {s s' : Session}
  {fds : Finset Int}

theorem Passed.accounted (hkernel : ∀ n, Executor.Succeeds (kernel n)) (h : Passed fuel input kernel pipeid s s')
    (hs : Accounted fds s) : Accounted fds s' := by
  cases h with
  | rejected => exact ⟨hs.kept, hs.descriptors, hs.children⟩
  | @executed result t _ hparse _ hexecute =>
    obtain ⟨hconnected, hpipes⟩ :=
      parse_connected ((Parser.parseLine_iff _ result).1 ⟨fuel, hparse⟩) (linked_segments ..)
    obtain ⟨hkept, hdescriptors, hchildren⟩ :=
      Executor.executeCommandList_accounted (hkernel s.lines) hconnected hpipes hexecute
    have hwriters : ((s.parsed result).executed s.lines t).writers = s.writers + Executor.writers t.forks := by
      simp [writers, Executor.writers, Session.executed, parsed, List.countP_append, Function.comp_def]
    refine ⟨hs.kept.trans hkept, ?_, ?_⟩
    · rw [hwriters, ← Nat.add_assoc, ← hs.descriptors]
      exact hdescriptors
    · rw [hwriters, ← hs.children, ← hchildren]
      simp [Session.executed, parsed]

/-- Any lines, accepted or not, with all pipes made and all commands forked: between the lines, and when the
session is over, the process has lost no descriptor, and it has one descriptor too many and one child that it
never waits for by each command that it has forked to write into a pipe. -/
theorem run_accounted (hkernel : ∀ n, Executor.Succeeds (kernel n)) {e : RunEnded}
    (h : run fuel input kernel pipeid fds = (e, s)) (hend : e = .returned ∨ e = .parsing) :
    fds ⊆ s.fds ∧ s.fds.card = fds.card + s.writers ∧ s.children.length = s.writers := by
  have hresult : ∀ r : RunEnded × Session, run fuel input kernel pipeid fds = r → (r.1 = .returned ∨ r.1 = .parsing) →
      Accounted fds r.2 := by
    rintro r rfl
    refine loop_invariant (I := Accounted fds)
      (P := fun r : RunEnded × Session => (r.1 = .returned ∨ r.1 = .parsing) → Accounted fds r.2) ?_ ?_ ?_ 23 ?_
    · exact fun s s' hs hpass => (pass_ok hpass).accounted hkernel hs
    · rintro s r hs hpass hend
      rcases pass_error hpass with ⟨_, rfl⟩ | rfl | ⟨_, e, t, _, _, _, _, rfl⟩
      · exact hs
      · exact hs
      · rcases hend with hend | hend <;> cases hend
    · exact fun s hs _ => hs
    · exact ⟨subset_rfl, rfl, rfl⟩
  have hs := hresult _ h hend
  exact ⟨hs.kept, hs.descriptors, hs.children⟩

theorem run_accounted_ls_cat : ∃ s, run 10 ["ls | cat".toList] (fun _ _ => {}) (fun _ => ⟨0, 0⟩) {0, 1, 2} = (.returned, s) ∧
    s.writers = 1 ∧ s.fds.card = 3 + 1 ∧ s.children.length = 1 := by
  obtain ⟨s, hs, hwriters⟩ : ∃ s, run 10 ["ls | cat".toList] (fun _ _ => {}) (fun _ => ⟨0, 0⟩) {0, 1, 2} =
      (.returned, s) ∧ s.writers = 1 := ⟨_, rfl, rfl⟩
  obtain ⟨_, hfds, hchildren⟩ := run_accounted (fun _ _ => ⟨rfl, rfl⟩) hs (.inl rfl)
  rw [hwriters] at hfds hchildren
  exact ⟨s, hs, hwriters, hfds, hchildren⟩

end Session

end UnixSysProg.Osh
