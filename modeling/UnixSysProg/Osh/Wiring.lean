/-
The processes of a line together: the shell, whose descriptors are the originals and the ends of the pipes
it makes, and the children it forks, each with what it had of them at the fork and its own redirections made.
A reader's standard input is the pipe that the command before it writes into, nobody but the writer has the
write end of a pipe once the shell has gone on, and the read ends that the shell leaves open go to every
later child.
-/
import UnixSysProg.Osh.Pipeline
import UnixSysProg.Osh.Child

namespace UnixSysProg.Osh

open UnixSysProg.Lib

/-! ## What redirections leave alone -/

/-- What a child has of the descriptors `fds` that it was made with: nothing else was inherited, and nothing
but the standard input and output has been redirected. -/
structure Inherits (fds : Finset Int) (t : DescriptorTable Description) : Prop where
  subset : fds ⊆ t.fds
  origin : ∀ fd fd', t.lookup fd = some (.inherited fd') → fd' ∈ fds
  kept : ∀ fd ∈ fds, fd ≠ stdinFileno → fd ≠ stdoutFileno → t.lookup fd = some (.inherited fd)

namespace Inherits

variable {fds : Finset Int} {t t' : DescriptorTable Description} {old target : Int} {k : ChildKernel} {call : OpenCall}

theorem start (c : Command) (fds : Finset Int) : Inherits fds (Child.start c fds).table := by
  refine ⟨Finset.Subset.refl _, fun fd fd' h => ?_, fun fd hfd _ _ => ?_⟩
  · rw [lookup_start] at h
    split at h
    · cases h
      assumption
    · cases h
  · rw [lookup_start, if_pos hfd]

theorem open_ (h : Inherits fds t) (call : OpenCall) : Inherits fds (t.open_ (.opened call)).2 := by
  have hfresh := lowestUnused_notMem t.fds
  refine ⟨fun fd hfd => Finset.mem_insert_of_mem (h.subset hfd), fun fd fd' hfd => ?_, fun fd hfd h0 h1 => ?_⟩
  · rw [t.lookup_open] at hfd
    split at hfd
    · cases hfd
    · exact h.origin fd fd' hfd
  · have hne : fd ≠ lowestUnused t.fds := fun he => hfresh (he ▸ h.subset hfd)
    rw [t.lookup_open, if_neg hne]
    exact h.kept fd hfd h0 h1

theorem dup2 (h : Inherits fds t) (htarget : target = stdinFileno ∨ target = stdoutFileno)
    (hdup : Osh.dup2 k t old target = .ok t') : Inherits fds t' := by
  unfold Osh.dup2 at hdup
  split at hdup
  · cases hdup
  · rename_i t'' ht''
    split at hdup
    · cases hdup
    · cases hdup
      have hlookup := t.lookup_dup ht''
      refine ⟨?_, fun fd fd' hfd => ?_, fun fd hfd h0 h1 => ?_⟩
      · rw [t.fds_dup ht'']
        exact h.subset.trans (Finset.subset_insert _ _)
      · rw [hlookup] at hfd
        split at hfd
        · exact h.origin _ fd' hfd
        · exact h.origin fd fd' hfd
      · have hne : fd ≠ target := by
          rcases htarget with rfl | rfl
          · exact h0
          · exact h1
        rw [hlookup, if_neg hne]
        exact h.kept fd hfd h0 h1

end Inherits

namespace Executor

/-- The child that a redirection leaves, whether it was made or not. -/
def left : Except (Int × Child) Child → Child
  | .error (_, s) => s
  | .ok s => s

variable {k : ChildKernel} {fds : Finset Int} {s : Child}

theorem redirectFile_inherits {asked : Prop} [Decidable asked] {call : OpenCall} {target : Int} {f : Int → Command}
    (htarget : target = stdinFileno ∨ target = stdoutFileno) (h : Inherits fds s.table) :
    Inherits fds (left (redirectFile k asked call target f s)).table := by
  unfold redirectFile openOnto
  by_cases hasked : asked
  · rw [if_pos hasked]
    cases hopen : k.openFails call with
    | some errno => exact h
    | none =>
      cases hdup : dup2 k (s.table.open_ (.opened call)).2 (s.table.open_ (.opened call)).1 target with
      | error errno =>
        simp only [hdup]
        exact h.open_ call
      | ok t =>
        simp only [hdup]
        exact (h.open_ call).dup2 htarget hdup
  · rw [if_neg hasked]
    exact h

theorem joinPipe_inherits {asked : Prop} [Decidable asked] {fid target : Int}
    (htarget : target = stdinFileno ∨ target = stdoutFileno) (h : Inherits fds s.table) :
    Inherits fds (left (joinPipe k asked fid target s)).table := by
  unfold joinPipe
  by_cases hasked : asked
  · rw [if_pos hasked]
    cases hdup : dup2 k s.table fid target with
    | error errno => exact h
    | ok t => exact h.dup2 htarget hdup
  · rw [if_neg hasked]
    exact h

theorem left_bind {r : Except (Int × Child) Child} {g : Child → Except (Int × Child) Child} {I : Child → Prop}
    (hr : I (left r)) (hg : ∀ s, I s → I (left (g s))) : I (left (r >>= g)) := by
  cases r with
  | error x => exact hr
  | ok s => exact hg s hr

theorem fixupStdinOut_left (k : ChildKernel) (s : Child) : (fixupStdinOut k s).2 = left (do
    let s ← fixInputFile k s
    let s ← fixOutputFile k s
    let s ← fixOutputPipe k s
    fixInputPipe k s) := by
  unfold fixupStdinOut
  dsimp only
  split
  · rename_i hr
    rw [hr]
    rfl
  · rename_i hr
    rw [hr]
    rfl

/-- Whatever the kernel answers, the redirections of a child leave all but its input and output alone. -/
theorem fixupStdinOut_inherits (k : ChildKernel) (c : Command) (fds : Finset Int) :
    Inherits fds (fixupStdinOut k (.start c fds)).2.table := by
  rw [fixupStdinOut_left]
  refine left_bind (I := fun s => Inherits fds s.table) (redirectFile_inherits (.inl rfl) (.start c fds)) fun s hs => ?_
  refine left_bind (I := fun s => Inherits fds s.table) (redirectFile_inherits (.inr rfl) hs) fun s hs => ?_
  refine left_bind (I := fun s => Inherits fds s.table) (joinPipe_inherits (.inr rfl) hs) fun s hs => ?_
  exact joinPipe_inherits (.inl rfl) hs

/-! ## The processes of a line -/

/-- What a descriptor is for in the end: what the shell had at `fd` before the line, an end of the pipe that
was made for the command at a position, or a file. -/
inductive Ref
  | original (fd : Int)
  | pipe (position : Nat) (pipeEnd : PipeEnd)
  | file (call : OpenCall)
  deriving DecidableEq

/-- What is behind a descriptor of a child, given what was behind those of the shell. -/
def Ref.of (refers : Int → Ref) : Description → Ref
  | .inherited fd => refers fd
  | .opened call => .file call

/-- A child when it executes its program: how it was forked, and its descriptors. -/
structure Process where
  fork : Fork
  table : DescriptorTable Ref

/-- The shell, what is behind its descriptors, and its children in the order of their forks. -/
structure System where
  shell : Shell
  refers : Int → Ref
  processes : List Process

/-- What is behind the shell's descriptors once the pipe of a fork is made. -/
def madeRefers (f : Fork) (refers : Int → Ref) : Int → Ref :=
  match f.pipe with
  | none => refers
  | some pipe => Function.update (Function.update refers pipe.read (.pipe f.position .read)) pipe.write
      (.pipe f.position .write)

def madeFds (f : Fork) (fds : Finset Int) : Finset Int :=
  match f.pipe with
  | none => fds
  | some pipe => insert pipe.write (insert pipe.read fds)

/-- The child of a fork: it closes the read end of the pipe that it writes into, and goes on to its program;
`none` when it reads through a null pointer. -/
def childProcess (k : ChildKernel) (f : Fork) (pipeid : PipeId) (refers : Int → Ref) (fds : Finset Int) : Option Process :=
  let fds := if f.command.outputMode = .pipe then fds.erase pipeid.read else fds
  match childExecFunction k (.start f.command fds) with
  | some ⟨some x, _⟩ => some ⟨f, x.table.map (Ref.of refers)⟩
  | _ => none

/-- A pass of the shell, with the child that it forks. -/
def systemPass (kernel : Nat → Answers) (child : Nat → ChildKernel) (w : System) : Except (Ended × System) System :=
  match pass kernel w.shell with
  | .error (e, s) => .error (e, { w with shell := s })
  | .ok s =>
    match s.forks.getLast? with
    | none => .ok { w with shell := s }
    | some f =>
      let refers := madeRefers f w.refers
      let process := childProcess (child f.position) f s.pipeid refers (madeFds f w.shell.fds)
      .ok ⟨s, refers, w.processes ++ process.toList⟩

/-- The line in a shell with these descriptors. -/
def runSystem (kernel : Nat → Answers) (child : Nat → ChildKernel) (pipeid : PipeId) (fds : Finset Int)
    (chain : List Command) : Ended × System :=
  loop (systemPass kernel child) (fun w => (.returned, w)) 20 ⟨start pipeid fds chain, .original, []⟩

/-! ## A pass of the system -/

/-- What a pass leaves the shell with: nothing new, or the read end of the pipe that it has made. -/
inductive Made (kernel : Nat → Answers) (s s' : Shell) (f : Fork) : Prop
  | nothing : f.pipe = none → (f.command.outputMode = .pipe → (kernel s.position).pipe ≠ .ok ()) → s'.fds ⊆ s.fds →
      (f.command.outputMode ≠ .pipe → s'.fds = s.fds) → Made kernel s s' f
  | pipe {read write : Int} : openPipe s.fds = (read, write) → f.pipe = some ⟨read, write⟩ →
      f.command.outputMode = .pipe → f.command.outputFid = write → s'.pipeid = ⟨read, write⟩ →
      s'.fds = insert read s.fds → Made kernel s s' f

/-- What a pass adds to the shell. -/
structure Spawns (kernel : Nat → Answers) (s s' : Shell) (f : Fork) : Prop where
  forks : s'.forks = s.forks ++ [f]
  position : f.position = s.position
  later : s.position < s'.position
  argv : f.command.argv ≠ none
  made : Made kernel s s' f

variable {kernel : Nat → Answers} {s s' : Shell} {f : Fork} {child : Nat → ChildKernel} {w w' : System} {e : Ended}

theorem argv_ne_none {c : Command} (h : c.isCommandExit = some false) : c.argv ≠ none := by
  intro hnone
  simp [Command.isCommandExit, Command.getExecutable, hnone] at h

theorem position_lt_parent (a : Answers) (piped : Bool) (c : Command) (next : List Command) {t : Shell}
    (ht : t.position = s.position) : s.position < (parent a piped c next t).position := by
  rw [parent_eq]
  dsimp only
  split
  · omega
  · omega

theorem Passed.spawns (h : Passed kernel s s') : ∃ f, Spawns kernel s s' f := by
  cases h with
  | @plain c next hcurr hexit hmode _ =>
    have hfds : (parent (kernel s.position) false c next { s with forks := s.forks ++ [⟨s.position, c, none⟩] }).fds = s.fds := by
      rw [parent_eq]
      rfl
    exact ⟨⟨s.position, c, none⟩, by rw [parent_eq], rfl, position_lt_parent _ _ _ _ rfl, argv_ne_none hexit,
      .nothing rfl (fun hpipe => absurd hpipe hmode) hfds.subset fun _ => hfds⟩
  | @piped c n rest hcurr hexit hmode _ _ =>
    refine ⟨⟨s.position, { c with outputFid := (openPipe s.fds).2 }, some ⟨(openPipe s.fds).1, (openPipe s.fds).2⟩⟩,
      by rw [parent_eq], rfl, position_lt_parent _ _ _ _ rfl, argv_ne_none hexit,
      .pipe (Prod.mk.eta (p := openPipe s.fds)).symm rfl hmode rfl ?_ ?_⟩
    · rw [parent_eq]
    -- the parent closes the write end, which it has just opened
    have hnew : (openPipe s.fds).2 ∉ insert (openPipe s.fds).1 s.fds := by
      rw [Finset.mem_insert, not_or]
      exact ⟨openPipe_write_ne_read, openPipe_write_notMem⟩
    rw [parent_eq]
    exact Finset.erase_insert hnew
  | @unpiped c next errno hcurr hexit hmode hpipe _ =>
    refine ⟨⟨s.position, c, none⟩, by rw [parent_eq], rfl, position_lt_parent _ _ _ _ rfl, argv_ne_none hexit,
      .nothing rfl (fun _ => by simp [hpipe]) ?_ fun hno => absurd hmode hno⟩
    rw [parent_eq]
    exact Finset.erase_subset _ _

/-- A child with an `argv` executes its program. -/
theorem childProcess_eq {k : ChildKernel} (hargv : f.command.argv ≠ none) (pipeid : PipeId) (refers : Int → Ref)
    (fds : Finset Int) : ∃ p, childProcess k f pipeid refers fds = some p ∧ p.fork = f ∧
      p.table = ((fixupStdinOut k (.start (started k f.command)
        (if f.command.outputMode = .pipe then fds.erase pipeid.read else fds))).2.table).map (Ref.of refers) := by
  obtain ⟨⟨execvp, status⟩, x, he, hx, htable⟩ := childExecFunction_execvp hargv k
    (if f.command.outputMode = .pipe then fds.erase pipeid.read else fds)
  cases hx
  refine ⟨⟨f, x.table.map (Ref.of refers)⟩, by simp only [childProcess, he], rfl, ?_⟩
  rw [htable]

/-- What a pass of the system adds: the fork of the shell's pass, and its child. -/
structure Forked (kernel : Nat → Answers) (child : Nat → ChildKernel) (w w' : System) (f : Fork) (p : Process) : Prop where
  spawns : Spawns kernel w.shell w'.shell f
  refers : w'.refers = madeRefers f w.refers
  processes : w'.processes = w.processes ++ [p]
  fork : p.fork = f
  table : p.table = ((fixupStdinOut (child f.position) (.start (started (child f.position) f.command)
    (if f.command.outputMode = .pipe then (madeFds f w.shell.fds).erase w'.shell.pipeid.read
      else madeFds f w.shell.fds))).2.table).map (Ref.of (madeRefers f w.refers))

theorem systemPass_ok (h : systemPass kernel child w = .ok w') : ∃ f p, Forked kernel child w w' f p := by
  unfold systemPass at h
  split at h
  · cases h
  · rename_i s hpass
    obtain ⟨f, hspawns⟩ := (pass_ok hpass).spawns
    rw [hspawns.forks, List.getLast?_append, List.getLast?_singleton, Option.some_or] at h
    obtain ⟨p, hp, hfork, htable⟩ := childProcess_eq (k := child f.position) hspawns.argv s.pipeid
      (madeRefers f w.refers) (madeFds f w.shell.fds)
    simp only [hp] at h
    cases h
    exact ⟨f, p, hspawns, rfl, rfl, hfork, htable⟩

theorem systemPass_error (h : systemPass kernel child w = .error (e, w')) :
    w'.processes = w.processes ∧ w'.refers = w.refers ∧ Stopped w.shell e w'.shell := by
  unfold systemPass at h
  split at h
  · rename_i e' s hpass
    cases h
    exact ⟨rfl, rfl, pass_error hpass⟩
  · split at h
    · cases h
    · cases h

/-! ## Where the ends of the pipes are -/

section Ends

variable {read write : Int} {p : Process} {fd n : Int} {refers : Int → Ref}

theorem madeRefers_none (hpipe : f.pipe = none) : madeRefers f refers = refers := by
  simp only [madeRefers, hpipe]

theorem madeRefers_write (hpipe : f.pipe = some ⟨read, write⟩) :
    madeRefers f refers write = .pipe f.position .write := by
  simp only [madeRefers, hpipe, Function.update_self]

theorem madeRefers_read (hpipe : f.pipe = some ⟨read, write⟩) (hne : write ≠ read) :
    madeRefers f refers read = .pipe f.position .read := by
  simp only [madeRefers, hpipe]
  rw [Function.update_of_ne hne.symm, Function.update_self]

theorem madeRefers_old (hpipe : f.pipe = some ⟨read, write⟩) (hread : fd ≠ read) (hwrite : fd ≠ write) :
    madeRefers f refers fd = refers fd := by
  simp only [madeRefers, hpipe]
  rw [Function.update_of_ne hwrite, Function.update_of_ne hread]

end Ends

/-- The ends of a new pipe are at descriptors that were free. -/
theorem openPipe_fresh {fds : Finset Int} {read write : Int} (h : openPipe fds = (read, write)) :
    read ∉ fds ∧ write ∉ fds ∧ write ≠ read := by
  have hread : (openPipe fds).1 = read := by rw [h]
  have hwrite : (openPipe fds).2 = write := by rw [h]
  rw [← hread, ← hwrite]
  exact ⟨openPipe_read_notMem, openPipe_write_notMem, openPipe_write_ne_read⟩

/-- What is behind the descriptors that were open before a pass does not change. -/
theorem Made.refers_old (h : Made kernel s s' f) (refers : Int → Ref) {fd : Int} (hfd : fd ∈ s.fds) :
    madeRefers f refers fd = refers fd := by
  cases h with
  | nothing hpipe _ _ _ => rw [madeRefers_none hpipe]
  | pipe hopen hpipe _ _ _ _ =>
    obtain ⟨hread, hwrite, _⟩ := openPipe_fresh hopen
    exact madeRefers_old hpipe (fun he => hread (he ▸ hfd)) fun he => hwrite (he ▸ hfd)

/-- The descriptors at the fork: those of before, and the ends of the new pipe. -/
theorem Made.refers_cases (h : Made kernel s s' f) (refers : Int → Ref) {fd : Int} (hfd : fd ∈ madeFds f s.fds) :
    (fd ∈ s.fds ∧ madeRefers f refers fd = refers fd) ∨
      ∃ read write, f.pipe = some ⟨read, write⟩ ∧ s'.pipeid = ⟨read, write⟩ ∧ f.command.outputMode = .pipe ∧
        ((fd = read ∧ madeRefers f refers fd = .pipe f.position .read) ∨
          (fd = write ∧ madeRefers f refers fd = .pipe f.position .write)) := by
  have hold : fd ∈ s.fds → madeRefers f refers fd = refers fd := h.refers_old refers
  cases h with
  | nothing hpipe _ _ _ =>
    simp only [madeFds, hpipe] at hfd
    exact .inl ⟨hfd, hold hfd⟩
  | @pipe read write hopen hpipe hmode _ hpipeid _ =>
    obtain ⟨_, _, hne⟩ := openPipe_fresh hopen
    simp only [madeFds, hpipe, Finset.mem_insert] at hfd
    rcases hfd with rfl | rfl | hfd
    · exact .inr ⟨read, fd, hpipe, hpipeid, hmode, .inr ⟨rfl, madeRefers_write hpipe⟩⟩
    · exact .inr ⟨fd, write, hpipe, hpipeid, hmode, .inl ⟨rfl, madeRefers_read hpipe hne⟩⟩
    · exact .inl ⟨hfd, hold hfd⟩

/-- The shell keeps no write end. -/
theorem Made.refers_after (h : Made kernel s s' f) (refers : Int → Ref) {fd : Int} (hfd : fd ∈ s'.fds) :
    (fd ∈ s.fds ∧ madeRefers f refers fd = refers fd) ∨ madeRefers f refers fd = .pipe f.position .read := by
  have hold : fd ∈ s.fds → madeRefers f refers fd = refers fd := h.refers_old refers
  cases h with
  | nothing _ _ hsub _ => exact .inl ⟨hsub hfd, hold (hsub hfd)⟩
  | pipe hopen hpipe _ _ _ hfds =>
    rw [hfds, Finset.mem_insert] at hfd
    rcases hfd with rfl | hfd
    · exact .inr (madeRefers_read hpipe (openPipe_fresh hopen).2.2)
    · exact .inl ⟨hfd, hold hfd⟩

/-- The descriptors that a child starts with. -/
def childFds (f : Fork) (pipeid : PipeId) (fds : Finset Int) : Finset Int :=
  if f.command.outputMode = .pipe then (madeFds f fds).erase pipeid.read else madeFds f fds

theorem childFds_subset (f : Fork) (pipeid : PipeId) (fds : Finset Int) : childFds f pipeid fds ⊆ madeFds f fds := by
  unfold childFds
  split
  · exact Finset.erase_subset _ _
  · exact Finset.Subset.refl _

/-- An end of a pipe in a child is one of the descriptors that it started with. -/
theorem Forked.origin {p : Process} (h : Forked kernel child w w' f p) {fd : Int} {n : Nat} {pipeEnd : PipeEnd}
    (hfd : p.table.lookup fd = some (.pipe n pipeEnd)) :
    ∃ fd' ∈ childFds f w'.shell.pipeid w.shell.fds, madeRefers f w.refers fd' = .pipe n pipeEnd := by
  have hinherits := fixupStdinOut_inherits (child f.position) (started (child f.position) f.command)
    (childFds f w'.shell.pipeid w.shell.fds)
  rw [h.table, DescriptorTable.lookup_map, Option.map_eq_some_iff] at hfd
  obtain ⟨d, hd, href⟩ := hfd
  cases d with
  | inherited fd' => exact ⟨fd', hinherits.origin fd fd' hd, href⟩
  | opened call => cases href

/-- A descriptor of the shell that is neither the input nor the output is in the child what it was. -/
theorem Forked.kept {p : Process} (h : Forked kernel child w w' f p) {fd : Int} (hfd : fd ∈ w.shell.fds)
    (h0 : fd ≠ stdinFileno) (h1 : fd ≠ stdoutFileno) (hown : f.command.outputMode = .pipe → fd ≠ w'.shell.pipeid.read) :
    p.table.lookup fd = some (w.refers fd) := by
  have hinherits := fixupStdinOut_inherits (child f.position) (started (child f.position) f.command)
    (childFds f w'.shell.pipeid w.shell.fds)
  have hmade : fd ∈ madeFds f w.shell.fds := by
    unfold madeFds
    split
    · exact hfd
    · exact Finset.mem_insert_of_mem (Finset.mem_insert_of_mem hfd)
  have hchild : fd ∈ childFds f w'.shell.pipeid w.shell.fds := by
    unfold childFds
    split
    · rename_i hmode
      exact Finset.mem_erase.2 ⟨hown hmode, hmade⟩
    · exact hmade
  have hlookup := hinherits.kept fd hchild h0 h1
  rw [h.table, DescriptorTable.lookup_map]
  unfold childFds at hlookup
  rw [hlookup, Option.map_some]
  exact congrArg some (h.spawns.made.refers_old w.refers hfd)

/-! ## Write ends -/

/-- Among the children only the writer of a pipe has its write end, and there is one child for each position. -/
structure WritersOnly (processes : List Process) : Prop where
  writer : ∀ p ∈ processes, ∀ fd n, p.table.lookup fd = some (.pipe n .write) →
    n = p.fork.position ∧ p.fork.command.outputMode = .pipe
  order : processes.Pairwise fun p q => p.fork.position < q.fork.position

theorem WritersOnly.unique {processes : List Process} (h : WritersOnly processes) {p q : Process} (hp : p ∈ processes)
    (hq : q ∈ processes) (heq : p.fork.position = q.fork.position) : p = q := by
  have hnodup : (processes.map (·.fork.position)).Nodup := List.pairwise_map.2 (h.order.imp Nat.ne_of_lt)
  exact List.inj_on_of_nodup_map hnodup hp hq heq

/-- Between the passes nobody has the write end of a pipe but the child that writes into it. -/
structure Confined (w : System) : Prop where
  shell : ∀ fd ∈ w.shell.fds, ∀ n, w.refers fd ≠ .pipe n .write
  processes : WritersOnly w.processes
  below : ∀ p ∈ w.processes, p.fork.position < w.shell.position

theorem Confined.start (pipeid : PipeId) (fds : Finset Int) (chain : List Command) :
    Confined ⟨start pipeid fds chain, .original, []⟩ where
  shell := fun _ _ _ h => by cases h
  processes := ⟨by simp, List.Pairwise.nil⟩
  below := by simp

theorem Confined.forked {p : Process} (hc : Confined w) (h : Forked kernel child w w' f p) : Confined w' := by
  have hposition := h.spawns.position
  refine ⟨fun fd hfd n => ?_, ⟨fun q hq fd n hfd => ?_, ?_⟩, fun q hq => ?_⟩
  · rw [h.refers]
    rcases h.spawns.made.refers_after w.refers hfd with ⟨hold, heq⟩ | heq
    · rw [heq]
      exact hc.shell fd hold n
    · rw [heq]
      simp
  · rw [h.processes, List.mem_append, List.mem_singleton] at hq
    rcases hq with hq | rfl
    · exact hc.processes.writer q hq fd n hfd
    · -- the new child: its end was the shell's before, where it is no write end, or is of the pipe made for it
      obtain ⟨fd', hfd', href⟩ := h.origin hfd
      rcases h.spawns.made.refers_cases w.refers (childFds_subset _ _ _ hfd') with
        ⟨hold, heq⟩ | ⟨_, _, _, _, hmode, ⟨_, heq⟩ | ⟨_, heq⟩⟩
      · exact absurd (heq.symm.trans href) (hc.shell fd' hold n)
      · rw [heq] at href
        cases href
      · rw [heq] at href
        cases href
        rw [h.fork]
        exact ⟨rfl, hmode⟩
  · rw [h.processes]
    refine List.pairwise_append.2 ⟨hc.processes.order, List.pairwise_singleton _ _, fun q hq q' hq' => ?_⟩
    rw [List.mem_singleton.1 hq', h.fork, hposition]
    exact hc.below q hq
  · rw [h.processes, List.mem_append, List.mem_singleton] at hq
    have hlater := h.spawns.later
    rcases hq with hq | rfl
    · exact (hc.below q hq).trans hlater
    · rwa [h.fork, hposition]

theorem runSystem_confined (kernel : Nat → Answers) (child : Nat → ChildKernel) (pipeid : PipeId) (fds : Finset Int)
    (chain : List Command) : WritersOnly (runSystem kernel child pipeid fds chain).2.processes ∧
      ((runSystem kernel child pipeid fds chain).1 = .returned → ∀ fd ∈ (runSystem kernel child pipeid fds chain).2.shell.fds,
        ∀ n, (runSystem kernel child pipeid fds chain).2.refers fd ≠ .pipe n .write) := by
  refine loop_invariant (I := Confined) (P := fun r : Ended × System => WritersOnly r.2.processes ∧
    (r.1 = .returned → ∀ fd ∈ r.2.shell.fds, ∀ n, r.2.refers fd ≠ .pipe n .write)) ?_ ?_ ?_ 20 (.start pipeid fds chain)
  · intro w w' hc hpass
    obtain ⟨f, p, hforked⟩ := systemPass_ok hpass
    exact hc.forked hforked
  · rintro w ⟨e, w'⟩ hc hpass
    obtain ⟨hprocesses, hrefers, hstopped⟩ := systemPass_error hpass
    dsimp only
    rw [hprocesses, hrefers]
    refine ⟨hc.processes, fun hreturned => ?_⟩
    rw [(hstopped.returned hreturned).1]
    exact hc.shell
  · exact fun w hc => ⟨hc.processes, fun _ => hc.shell⟩

/-- Whatever the kernel answers to the shell and to its children: the write end of a pipe is open in at most
one process of the line, the child forked at the position of the pipe, and when the shell has returned it has
no write end either. So a pipe is at its end as soon as that one child is. -/
theorem write_ends_confined (kernel : Nat → Answers) (child : Nat → ChildKernel) (pipeid : PipeId) (fds : Finset Int)
    (chain : List Command) (n : Nat) :
    (∀ p ∈ (runSystem kernel child pipeid fds chain).2.processes, ∀ q ∈ (runSystem kernel child pipeid fds chain).2.processes,
        ∀ fd fd', p.table.lookup fd = some (.pipe n .write) → q.table.lookup fd' = some (.pipe n .write) →
          p = q ∧ p.fork.position = n ∧ p.fork.command.outputMode = .pipe) ∧
      ((runSystem kernel child pipeid fds chain).1 = .returned → ∀ fd ∈ (runSystem kernel child pipeid fds chain).2.shell.fds,
        (runSystem kernel child pipeid fds chain).2.refers fd ≠ .pipe n .write) := by
  obtain ⟨hwriters, hshell⟩ := runSystem_confined kernel child pipeid fds chain
  refine ⟨fun p hp q hq fd fd' hfd hfd' => ?_, fun hreturned fd hmem => hshell hreturned fd hmem n⟩
  obtain ⟨hn, hmode⟩ := hwriters.writer p hp fd n hfd
  obtain ⟨hn', _⟩ := hwriters.writer q hq fd' n hfd'
  exact ⟨hwriters.unique hp hq (hn.symm.trans hn'), hn.symm, hmode⟩

end Executor

end UnixSysProg.Osh
