/-
What is at the two ends of a pipe. When the calls of the shell and of its children succeed and every reader is
fed, the standard input of a reader and the standard output of the command before it are the two ends of one
pipe. The read ends are another matter: the shell closes none of them, so that every child forked later has
them too, and only the writer itself has not.
-/
import UnixSysProg.Osh.Wiring
import UnixSysProg.Osh.Balance

namespace UnixSysProg.Osh

open UnixSysProg.Lib

/-- No call of the child fails. -/
structure ChildKernel.Serves (k : ChildKernel) : Prop where
  openFails : ∀ call, k.openFails call = none
  dup2Fails : ∀ old new, k.dup2Fails old new = none

/-- A property of the elements and what comes before each of them, for a list that gets longer. -/
theorem forall_split_concat {α : Type} {Q : List α → α → Prop} {l : List α} {x : α} :
    (∀ pre y post, l ++ [x] = pre ++ y :: post → Q pre y) ↔ (∀ pre y post, l = pre ++ y :: post → Q pre y) ∧ Q l x := by
  constructor
  · intro h
    refine ⟨fun pre y post hl => h pre y (post ++ [x]) (by rw [hl]; simp), h l x [] rfl⟩
  · rintro ⟨h, hx⟩ pre y post heq
    rcases List.eq_nil_or_concat post with rfl | ⟨post, z, rfl⟩
    · obtain ⟨rfl, hy⟩ := List.append_inj' heq rfl
      cases hy
      exact hx
    · rw [List.concat_eq_append, ← List.cons_append, ← List.append_assoc] at heq
      exact h pre y post (List.append_inj' heq rfl).1

/-- `ls | cat`. -/
def lsCat : List Command :=
  [{ argv := some ["ls".toList], outputMode := .pipe, runNextCommand := .redirPipe },
    { argv := some ["cat".toList], inputMode := .pipe }]

theorem lsCat_matchesUp : MatchesUp lsCat := ⟨by simp [lsCat, PipesMatch], by simp [lsCat]⟩

/-- A kernel that refuses a child nothing. -/
def obliging : ChildKernel := { Executor.noFile with openFails := fun _ => none }

theorem obliging_serves : obliging.Serves := ⟨fun _ => rfl, fun _ _ => rfl⟩

namespace Executor

variable {kernel : Nat → Answers} {child : Nat → ChildKernel} {w w' : System} {f : Fork} {p : Process} {s s' : Shell}
  {pipeid : PipeId} {fds : Finset Int} {chain : List Command}

/-! ## The shell of the system -/

/-- The shell does in the system what it does by itself. -/
theorem runSystem_shell (kernel : Nat → Answers) (child : Nat → ChildKernel) (pipeid : PipeId) (fds : Finset Int)
    (chain : List Command) : ((runSystem kernel child pipeid fds chain).1, (runSystem kernel child pipeid fds chain).2.shell) =
      executeCommandList kernel pipeid fds chain := by
  rw [executeCommandList_eq]
  refine loop_map (f := System.shell) (g := fun r : Ended × System => (r.1, r.2.shell)) ?_ ?_ ?_ 20 _
  · intro w w' h
    unfold systemPass at h
    split at h
    · cases h
    · rename_i s hpass
      rw [hpass]
      split at h
      · cases h
        rfl
      · cases h
        rfl
  · rintro w ⟨e, w'⟩ h
    unfold systemPass at h
    split at h
    · rename_i e' s hpass
      cases h
      exact hpass
    · split at h
      · cases h
      · cases h
  · exact fun _ => rfl

/-- When the calls of the shell succeed, a pass makes a pipe exactly for a writer, and the shell keeps its read
end. -/
theorem Made.succeeds (h : Made kernel s s' f) (hkernel : Succeeds kernel) :
    (f.pipe = none ∧ f.command.outputMode ≠ .pipe ∧ s'.fds = s.fds) ∨
      ∃ read write, read ∉ s.fds ∧ write ∉ s.fds ∧ write ≠ read ∧ f.pipe = some ⟨read, write⟩ ∧
        f.command.outputMode = .pipe ∧ f.command.outputFid = write ∧ s'.pipeid = ⟨read, write⟩ ∧ s'.fds = insert read s.fds := by
  cases h with
  | nothing hpipe hno _ hsame =>
    have hmode : f.command.outputMode ≠ .pipe := fun hmode => hno hmode (hkernel _).1
    exact .inl ⟨hpipe, hmode, hsame hmode⟩
  | pipe hopen hpipe hmode hfid hpipeid hfds =>
    obtain ⟨hread, hwrite, hne⟩ := openPipe_fresh hopen
    exact .inr ⟨_, _, hread, hwrite, hne, hpipe, hmode, hfid, hpipeid, hfds⟩

/-- The read end of the child's own pipe is none of the descriptors that were open before. -/
theorem Made.own_read (h : Made kernel s s' f) (hkernel : Succeeds kernel) {fd : Int} (hfd : fd ∈ s.fds)
    (hmode : f.command.outputMode = .pipe) : fd ≠ s'.pipeid.read := by
  rcases h.succeeds hkernel with ⟨_, hno, _⟩ | ⟨read, write, hread, _, _, _, _, _, hpipeid, _⟩
  · exact absurd hmode hno
  · rw [hpipeid]
    rintro rfl
    exact hread hfd

/-! ## Read ends -/

/-- Between the passes: the children are those of the forks, the shell has the standard descriptors and the read
ends of all pipes, and the ends that it has are those of earlier pipes. -/
structure Plumbed (w : System) : Prop where
  forks : w.processes.map (·.fork) = w.shell.forks
  stdin : stdinFileno ∈ w.shell.fds
  stdout : stdoutFileno ∈ w.shell.fds
  earlier : ∀ fd ∈ w.shell.fds, ∀ n pipeEnd, w.refers fd = .pipe n pipeEnd → n < w.shell.position
  reads : ∀ p ∈ w.processes, ∀ pipe, p.fork.pipe = some pipe → pipe.read ∈ w.shell.fds ∧
    pipe.read ≠ stdinFileno ∧ pipe.read ≠ stdoutFileno ∧ w.refers pipe.read = .pipe p.fork.position .read
  writers : ∀ p ∈ w.processes, p.fork.pipe ≠ none → p.fork.command.outputMode = .pipe

theorem Plumbed.start (pipeid : PipeId) (hstdin : stdinFileno ∈ fds) (hstdout : stdoutFileno ∈ fds) (chain : List Command) :
    Plumbed ⟨start pipeid fds chain, .original, []⟩ where
  forks := rfl
  stdin := hstdin
  stdout := hstdout
  earlier := fun _ _ _ _ h => by cases h
  reads := fun _ h => by cases h
  writers := fun _ h => by cases h

theorem Plumbed.forked (hw : Plumbed w) (hkernel : Succeeds kernel) (h : Forked kernel child w w' f p) : Plumbed w' := by
  have hmem : ∀ fd ∈ w.shell.fds, fd ∈ w'.shell.fds := by
    intro fd hfd
    rcases h.spawns.made.succeeds hkernel with ⟨_, _, hfds⟩ | ⟨_, _, _, _, _, _, _, _, _, hfds⟩
    · rwa [hfds]
    · rw [hfds]
      exact Finset.mem_insert_of_mem hfd
  have hposition := h.spawns.position
  have hlater := h.spawns.later
  refine ⟨?_, hmem _ hw.stdin, hmem _ hw.stdout, fun fd hfd n pipeEnd href => ?_, fun q hq pipe hpipe => ?_, fun q hq hne => ?_⟩
  · rw [h.processes, List.map_append, hw.forks, h.spawns.forks, List.map_singleton, h.fork]
  · rw [h.refers] at href
    rcases h.spawns.made.refers_after w.refers hfd with ⟨hold, heq⟩ | heq
    · exact (hw.earlier fd hold n pipeEnd (heq.symm.trans href)).trans hlater
    · rw [heq] at href
      cases href
      rwa [hposition]
  · rw [h.processes, List.mem_append, List.mem_singleton] at hq
    rw [h.refers]
    rcases hq with hq | rfl
    · obtain ⟨hread, h0, h1, href⟩ := hw.reads q hq pipe hpipe
      exact ⟨hmem _ hread, h0, h1, (h.spawns.made.refers_old w.refers hread).trans href⟩
    · rw [h.fork] at hpipe ⊢
      rcases h.spawns.made.succeeds hkernel with ⟨hnone, _⟩ | ⟨read, write, hread, _, hne, hpipe', _, _, _, hfds⟩
      · rw [hnone] at hpipe
        cases hpipe
      · cases hpipe.symm.trans hpipe'
        refine ⟨hfds ▸ Finset.mem_insert_self _ _, ?_, ?_, madeRefers_read hpipe' hne⟩
        · rintro rfl
          exact hread hw.stdin
        · rintro rfl
          exact hread hw.stdout
  · rw [h.processes, List.mem_append, List.mem_singleton] at hq
    rcases hq with hq | rfl
    · exact hw.writers q hq hne
    · rw [h.fork] at hne ⊢
      rcases h.spawns.made.succeeds hkernel with ⟨hnone, _⟩ | ⟨_, _, _, _, _, _, hmode, _⟩
      · exact absurd hnone hne
      · exact hmode

/-- Who has the read ends: not the writer, but every child after it. -/
structure ReadEndsLeft (w : System) : Prop where
  own : ∀ p ∈ w.processes, ∀ fd, p.table.lookup fd ≠ some (.pipe p.fork.position .read)
  later : w.processes.Pairwise fun p q => ∀ pipe, p.fork.pipe = some pipe →
    q.table.lookup pipe.read = some (.pipe p.fork.position .read)

theorem ReadEndsLeft.forked (hl : ReadEndsLeft w) (hw : Plumbed w) (hkernel : Succeeds kernel)
    (h : Forked kernel child w w' f p) : ReadEndsLeft w' := by
  constructor
  · intro q hq fd hfd
    rw [h.processes, List.mem_append, List.mem_singleton] at hq
    rcases hq with hq | rfl
    · exact hl.own q hq fd hfd
    · rw [h.fork] at hfd
      obtain ⟨fd', hfd', href⟩ := h.origin hfd
      rcases h.spawns.made.refers_cases w.refers (childFds_subset _ _ _ hfd') with
        ⟨hold, heq⟩ | ⟨read, write, _, hpipeid, hmode, ⟨rfl, _⟩ | ⟨_, heq⟩⟩
      · -- the shell's other pipes were made at earlier positions
        have hlt := hw.earlier fd' hold _ _ (heq.symm.trans href)
        rw [h.spawns.position] at hlt
        exact lt_irrefl _ hlt
      · rw [childFds, if_pos hmode, hpipeid] at hfd'
        exact absurd rfl (Finset.mem_erase.1 hfd').1
      · rw [heq] at href
        cases href
  · rw [h.processes]
    refine List.pairwise_append.2 ⟨hl.later, List.pairwise_singleton _ _, fun q hq q' hq' pipe hpipe => ?_⟩
    rw [List.mem_singleton.1 hq']
    obtain ⟨hread, h0, h1, href⟩ := hw.reads q hq pipe hpipe
    rw [← href]
    exact h.kept hread h0 h1 fun hmode => h.spawns.made.own_read hkernel hread hmode

/-- The read end of a pipe stays open where it should not: when all calls of the shell succeed, the shell still
has it when the line is done, and every child forked after the writer has it, at the same descriptor. Only the
writer has not. -/
theorem read_ends_left_open (hkernel : Succeeds kernel) (child : Nat → ChildKernel) (pipeid : PipeId)
    (hstdin : stdinFileno ∈ fds) (hstdout : stdoutFileno ∈ fds) (chain : List Command) :
    (∀ p ∈ (runSystem kernel child pipeid fds chain).2.processes, ∀ fd,
        p.table.lookup fd ≠ some (.pipe p.fork.position .read)) ∧
      ((runSystem kernel child pipeid fds chain).2.processes.Pairwise fun p q => ∀ pipe, p.fork.pipe = some pipe →
        q.table.lookup pipe.read = some (.pipe p.fork.position .read)) ∧
      ((runSystem kernel child pipeid fds chain).1 = .returned →
        ∀ p ∈ (runSystem kernel child pipeid fds chain).2.processes, ∀ pipe, p.fork.pipe = some pipe →
          pipe.read ∈ (runSystem kernel child pipeid fds chain).2.shell.fds ∧
          (runSystem kernel child pipeid fds chain).2.refers pipe.read = .pipe p.fork.position .read) := by
  refine loop_invariant (I := fun w => Plumbed w ∧ ReadEndsLeft w) (P := fun r : Ended × System =>
    (∀ p ∈ r.2.processes, ∀ fd, p.table.lookup fd ≠ some (.pipe p.fork.position .read)) ∧
    (r.2.processes.Pairwise fun p q => ∀ pipe, p.fork.pipe = some pipe →
      q.table.lookup pipe.read = some (.pipe p.fork.position .read)) ∧
    (r.1 = .returned → ∀ p ∈ r.2.processes, ∀ pipe, p.fork.pipe = some pipe →
      pipe.read ∈ r.2.shell.fds ∧ r.2.refers pipe.read = .pipe p.fork.position .read)) ?_ ?_ ?_ 20 ?_
  · rintro w w' ⟨hw, hl⟩ hpass
    obtain ⟨f, p, hforked⟩ := systemPass_ok hpass
    exact ⟨hw.forked hkernel hforked, hl.forked hw hkernel hforked⟩
  · rintro w ⟨e, w'⟩ ⟨hw, hl⟩ hpass
    obtain ⟨hprocesses, hrefers, hstopped⟩ := systemPass_error hpass
    dsimp only
    rw [hprocesses, hrefers]
    refine ⟨hl.own, hl.later, fun hreturned p hp pipe hpipe => ?_⟩
    rw [(hstopped.returned hreturned).1]
    obtain ⟨hread, _, _, href⟩ := hw.reads p hp pipe hpipe
    exact ⟨hread, href⟩
  · rintro w ⟨hw, hl⟩
    refine ⟨hl.own, hl.later, fun _ p hp pipe hpipe => ?_⟩
    obtain ⟨hread, _, _, href⟩ := hw.reads p hp pipe hpipe
    exact ⟨hread, href⟩
  · exact ⟨Plumbed.start pipeid hstdin hstdout chain, by simp, List.Pairwise.nil⟩

/-- `ls | cat`: `cat` has the read end of the pipe twice, and the shell keeps it. -/
theorem read_ends_left_open_two : ∃ q p, (runSystem (fun _ => {}) (fun _ => obliging) ⟨0, 0⟩ {0, 1, 2} lsCat).2.processes = [q, p] ∧
    (∀ fd, q.table.lookup fd ≠ some (.pipe 0 .read)) ∧ p.table.lookup 3 = some (.pipe 0 .read) ∧
    (3 ∈ (runSystem (fun _ => {}) (fun _ => obliging) ⟨0, 0⟩ {0, 1, 2} lsCat).2.shell.fds ∧
      (runSystem (fun _ => {}) (fun _ => obliging) ⟨0, 0⟩ {0, 1, 2} lsCat).2.refers 3 = .pipe 0 .read) := by
  obtain ⟨hown, hlater, hshell⟩ := read_ends_left_open (show Succeeds fun _ => {} from fun _ => ⟨rfl, rfl⟩)
    (fun _ => obliging) ⟨0, 0⟩ (show stdinFileno ∈ ({0, 1, 2} : Finset Int) by decide)
    (show stdoutFileno ∈ ({0, 1, 2} : Finset Int) by decide) lsCat
  refine ⟨_, _, rfl, ?_, ?_, ?_⟩
  · exact hown _ List.mem_cons_self
  · exact (List.pairwise_cons.1 hlater).1 _ List.mem_cons_self ⟨3, 4⟩ rfl
  · exact hshell rfl _ List.mem_cons_self ⟨3, 4⟩ rfl

/-! ## Readers and writers -/

/-- The two ends of a pipe: a writer's standard output is the write end of its pipe, and the standard input of
a reader is the read end of the pipe of the child before it. -/
structure Joined (processes : List Process) : Prop where
  outputs : ∀ p ∈ processes, p.fork.command.outputMode = .pipe →
    p.table.lookup stdoutFileno = some (.pipe p.fork.position .write)
  inputs : ∀ pre p post, processes = pre ++ p :: post → p.fork.command.inputMode = .pipe → ∃ q ∈ pre.getLast?,
    q.fork.command.outputMode = .pipe ∧ p.table.lookup stdinFileno = some (.pipe q.fork.position .read)

/-- Which kind of end of a pipe is behind a descriptor. -/
def endOf (refers : Int → Ref) (fd : Int) : Option PipeEnd :=
  match refers fd with
  | .pipe _ pipeEnd => some pipeEnd
  | _ => none

theorem endOf_pipe {refers : Int → Ref} {fd : Int} {n : Nat} {pipeEnd : PipeEnd} (h : refers fd = .pipe n pipeEnd) :
    endOf refers fd = some pipeEnd := by
  simp only [endOf, h]

/-- A reader that is fed finds the pipe of the child before it at its descriptor. -/
theorem Plumbed.reader (hw : Plumbed w) (hfed : ∃ g ∈ w.shell.forks.getLast?, g.Feeds f) : ∃ q ∈ w.processes.getLast?,
    f.command.inputFid ∈ w.shell.fds ∧ f.command.inputFid ≠ stdoutFileno ∧
      w.refers f.command.inputFid = .pipe q.fork.position .read ∧ q.fork.command.outputMode = .pipe := by
  obtain ⟨g, hg, _, pipe, hpipe, _, hfid⟩ := hfed
  rw [← hw.forks, List.getLast?_map, Option.mem_def, Option.map_eq_some_iff] at hg
  obtain ⟨q, hq, rfl⟩ := hg
  obtain ⟨hread, _, h1, href⟩ := hw.reads q (List.mem_of_getLast? hq) pipe hpipe
  rw [hfid]
  exact ⟨q, hq, hread, h1, href, hw.writers q (List.mem_of_getLast? hq) (by rw [hpipe]; exact Option.some_ne_none _)⟩

/-- All redirections of a child are granted when no call fails and it is fed if it reads from a pipe. -/
theorem Forked.granted (h : Forked kernel child w w' f p) (hw : Plumbed w) (hkernel : Succeeds kernel)
    (hchild : ∀ n, (child n).Serves) (hfed : f.command.inputMode = .pipe → ∃ g ∈ w.shell.forks.getLast?, g.Feeds f) :
    Granted (child f.position) (endOf (madeRefers f w.refers)) (childFds f w'.shell.pipeid w.shell.fds)
      (started (child f.position) f.command) := by
  have hserved : ∀ fds call target, Served (child f.position) fds call target :=
    fun _ _ _ => ⟨(hchild _).openFails _, (hchild _).dup2Fails _ _⟩
  have hmade : ∀ fd ∈ w.shell.fds, fd ∈ madeFds f w.shell.fds := by
    intro fd hfd
    unfold madeFds
    split
    · exact hfd
    · exact Finset.mem_insert_of_mem (Finset.mem_insert_of_mem hfd)
  refine ⟨fun _ => hserved _ _ _, fun hpipe => ?_, fun _ => hserved _ _ _, fun hpipe => ?_⟩
  · obtain ⟨q, _, hread, h1, href, _⟩ := hw.reader (hfed hpipe)
    have href' := (h.spawns.made.refers_old w.refers hread).trans href
    -- a child that also writes into a pipe closes the read end of that pipe only
    refine ⟨endOf_pipe href', ?_, (hchild _).dup2Fails _ _, fun hand => h1 hand.2⟩
    show f.command.inputFid ∈ childFds f w'.shell.pipeid w.shell.fds
    unfold childFds
    split
    · rename_i hmode
      exact Finset.mem_erase.2 ⟨h.spawns.made.own_read hkernel hread hmode, hmade _ hread⟩
    · exact hmade _ hread
  · rcases h.spawns.made.succeeds hkernel with ⟨_, hno, _⟩ |
      ⟨read, write, _, hwrite, hne, hpipe', hmode, hfid, hpipeid, _⟩
    · exact absurd hpipe hno
    · have hfid' : (started (child f.position) f.command).outputFid = write := hfid
      rw [hfid']
      refine ⟨endOf_pipe (madeRefers_write hpipe'), ?_, (hchild _).dup2Fails _ _, ?_⟩
      · rw [childFds, if_pos hmode, hpipeid]
        refine Finset.mem_erase.2 ⟨hne, ?_⟩
        simp only [madeFds, hpipe']
        exact Finset.mem_insert_self _ _
      · rintro ⟨_, rfl⟩
        exact hwrite hw.stdin

theorem Joined.forked (hj : Joined w.processes) (hw : Plumbed w) (hkernel : Succeeds kernel) (hchild : ∀ n, (child n).Serves)
    (h : Forked kernel child w w' f p) (hfed : f.command.inputMode = .pipe → ∃ g ∈ w.shell.forks.getLast?, g.Feeds f) :
    Joined w'.processes := by
  have hplace := fixupStdinOut_inPlace.2 (h.granted hw hkernel hchild hfed)
  have hlookup : ∀ fd fd', (fixupStdinOut (child f.position) (.start (started (child f.position) f.command)
      (childFds f w'.shell.pipeid w.shell.fds))).2.table.lookup fd = some (.inherited fd') →
      p.table.lookup fd = some (madeRefers f w.refers fd') := by
    intro fd fd' hfd
    rw [h.table, DescriptorTable.lookup_map]
    unfold childFds at hfd
    rw [hfd]
    rfl
  rw [h.processes]
  refine ⟨fun q hq hpipe => ?_, forall_split_concat.2 ⟨hj.inputs, fun hpipe => ?_⟩⟩
  · rcases List.mem_append.1 hq with hq | hq
    · exact hj.outputs q hq hpipe
    · obtain rfl := List.mem_singleton.1 hq
      rw [h.fork] at hpipe ⊢
      rcases h.spawns.made.succeeds hkernel with ⟨_, hno, _⟩ | ⟨read, write, _, _, _, hpipe', _, hfid, _, _⟩
      · exact absurd hpipe hno
      · have hout := hlookup _ _ (hplace.outputPipe hpipe).2
        have hfid' : (started (child f.position) f.command).outputFid = write := hfid
        rw [hout, hfid', madeRefers_write hpipe']
  · rw [h.fork] at hpipe
    obtain ⟨q, hq, hread, _, href, hmode⟩ := hw.reader (hfed hpipe)
    refine ⟨q, hq, hmode, ?_⟩
    have hin := hlookup _ _ (hplace.inputPipe hpipe).2
    rw [hin]
    exact congrArg some ((h.spawns.made.refers_old w.refers hread).trans href)

/-- The children of a line in which every reader is fed are joined. -/
theorem joined_of_fed (hkernel : Succeeds kernel) (hchild : ∀ n, (child n).Serves) (pipeid : PipeId)
    (hstdin : stdinFileno ∈ fds) (hstdout : stdoutFileno ∈ fds) (hfed : Fed (executeCommandList kernel pipeid fds chain).2.forks) :
    Joined (runSystem kernel child pipeid fds chain).2.processes := by
  have hshell := congrArg Prod.snd (runSystem_shell kernel child pipeid fds chain)
  dsimp only at hshell
  rw [← hshell] at hfed
  revert hfed
  refine loop_invariant (I := fun w => Plumbed w ∧ (Fed w.shell.forks → Joined w.processes))
    (P := fun r : Ended × System => Fed r.2.shell.forks → Joined r.2.processes) ?_ ?_ ?_ 20 ?_
  · rintro w w' ⟨hw, hj⟩ hpass
    obtain ⟨f, p, hforked⟩ := systemPass_ok hpass
    refine ⟨hw.forked hkernel hforked, fun hfed => ?_⟩
    rw [hforked.spawns.forks, fed_concat] at hfed
    exact (hj hfed.1).forked hw hkernel hchild hforked hfed.2
  · rintro w ⟨e, w'⟩ ⟨_, hj⟩ hpass hfed
    obtain ⟨hprocesses, _, hstopped⟩ := systemPass_error hpass
    dsimp only at hfed ⊢
    rw [hstopped.forks] at hfed
    rw [hprocesses]
    exact hj hfed
  · exact fun w hw => hw.2
  · exact ⟨Plumbed.start pipeid hstdin hstdout chain, fun _ => ⟨by simp, by simp⟩⟩

/-! ## Lines without `&&` and `||` -/

/-- No command of the chain can skip the next one. -/
def NeverSkips (chain : List Command) : Prop :=
  ∀ c ∈ chain, c.runNextCommand ≠ .execOnsuccess ∧ c.runNextCommand ≠ .execOnfailure

theorem lsCat_neverSkips : NeverSkips lsCat := by simp [NeverSkips, lsCat]

theorem not_skips {c : Command} (h : c.runNextCommand ≠ .execOnsuccess ∧ c.runNextCommand ≠ .execOnfailure) (rval : Int) :
    ¬ Skips rval c := by
  rintro (⟨hfail, _⟩ | ⟨hsucc, _⟩)
  · exact h.2 hfail
  · exact h.1 hsucc

/-- A pass over such a chain keeps what is to come fed. -/
theorem Passed.neverSkips (h : Passed kernel s s') (hkernel : Succeeds kernel) (hs : ∀ k, Piping kernel k s)
    (hnever : NeverSkips s.curr) : (∀ k, Piping kernel k s') ∧ NeverSkips s'.curr := by
  obtain ⟨c, next, _, hcurr, _⟩ := h.exists_fork
  rw [hcurr] at hnever
  have hno := not_skips (hnever c List.mem_cons_self) (kernel s.position).childRval
  constructor
  · intro k
    refine h.piping (hs (k + 1)) fun c' next' hcurr' _ => ?_
    cases hcurr.symm.trans hcurr'
    exact ⟨fun hskips => absurd hskips hno, fun _ _ hpipe => absurd (hkernel _).1 hpipe⟩
  · cases h.goesOn hcurr with
    | skips hskips => exact absurd hskips hno
    | unpiped _ _ _ hcurr' =>
      rw [hcurr']
      exact fun d hd => hnever d (List.mem_cons_of_mem _ hd)
    | @piped pipe n rest _ _ hnext _ hcurr' _ =>
      subst hnext
      rw [hcurr']
      intro d hd
      rcases List.mem_cons.1 hd with rfl | hd
      · exact hnever n (List.mem_cons_of_mem _ List.mem_cons_self)
      · exact hnever d (List.mem_cons_of_mem _ (List.mem_cons_of_mem _ hd))

theorem fed_of_neverSkips (hkernel : Succeeds kernel) (pipeid : PipeId) (fds : Finset Int) (hchain : MatchesUp chain)
    (hnever : NeverSkips chain) : Fed (executeCommandList kernel pipeid fds chain).2.forks := by
  rw [executeCommandList_eq]
  refine loop_invariant (I := fun s => (∀ k, Piping kernel k s) ∧ NeverSkips s.curr)
    (P := fun r : Ended × Shell => Fed r.2.forks) ?_ ?_ ?_ 20 ⟨fun k => ?_, hnever⟩
  · rintro s s' ⟨hs, hnever⟩ hpass
    exact (pass_ok hpass).neverSkips hkernel hs hnever
  · rintro s ⟨e, t⟩ ⟨hs, _⟩ hpass
    show Fed t.forks
    rw [(pass_error hpass).forks]
    exact (hs 0).fed
  · exact fun s hs => (hs.1 0).fed
  · refine ⟨?_, hchain.pipes, fun _ c hc hpipe => absurd hpipe (hchain.head c hc)⟩
    rintro pre f post hforks
    simp [start] at hforks

/-! ## Pipelines -/

/-- All pipelines of a line are joined: when the calls of the shell and of its children succeed and every reader
that is forked comes right after its writer, the standard input of each reader is the read end of the pipe whose
write end is the standard output of the child forked before it. -/
theorem pipelines_joined (hkernel : Succeeds kernel) (hchild : ∀ n, (child n).Serves) (pipeid : PipeId)
    (hstdin : stdinFileno ∈ fds) (hstdout : stdoutFileno ∈ fds) (hfed : Fed (executeCommandList kernel pipeid fds chain).2.forks) :
    ∀ pre p post, (runSystem kernel child pipeid fds chain).2.processes = pre ++ p :: post →
      p.fork.command.inputMode = .pipe → ∃ q ∈ pre.getLast?,
        q.table.lookup stdoutFileno = some (.pipe q.fork.position .write) ∧
        p.table.lookup stdinFileno = some (.pipe q.fork.position .read) := by
  have hj := joined_of_fed hkernel hchild pipeid hstdin hstdout hfed
  intro pre p post hprocesses hpipe
  obtain ⟨q, hq, hmode, hin⟩ := hj.inputs pre p post hprocesses hpipe
  refine ⟨q, hq, hj.outputs q ?_ hmode, hin⟩
  rw [hprocesses]
  exact List.mem_append_left _ (List.mem_of_getLast? hq)

/-- `ls | cat`. -/
theorem pipelines_joined_two : ∃ q p, (runSystem (fun _ => {}) (fun _ => obliging) ⟨0, 0⟩ {0, 1, 2} lsCat).2.processes = [q, p] ∧
    ∃ q' ∈ [q].getLast?, q'.table.lookup stdoutFileno = some (.pipe q'.fork.position .write) ∧
      p.table.lookup stdinFileno = some (.pipe q'.fork.position .read) := by
  refine ⟨_, _, rfl, ?_⟩
  exact pipelines_joined (show Succeeds fun _ => {} from fun _ => ⟨rfl, rfl⟩) (fun _ => obliging_serves) ⟨0, 0⟩
    (show stdinFileno ∈ ({0, 1, 2} : Finset Int) by decide) (show stdoutFileno ∈ ({0, 1, 2} : Finset Int) by decide)
    (fed_of_neverSkips (fun _ => ⟨rfl, rfl⟩) ⟨0, 0⟩ {0, 1, 2} lsCat_matchesUp lsCat_neverSkips) [_] _ [] rfl rfl

/-- A line of pipelines without `&&` and `||`, its pipes matching up: every reader that is forked is joined to the
child before it, and that child is the only process with the write end of their pipe, so that the reader comes
to the end of its input when its writer is done. -/
theorem pipelines_end (hkernel : Succeeds kernel) (hchild : ∀ n, (child n).Serves) (pipeid : PipeId)
    (hstdin : stdinFileno ∈ fds) (hstdout : stdoutFileno ∈ fds) (hchain : MatchesUp chain) (hnever : NeverSkips chain) :
    ∀ pre p post, (runSystem kernel child pipeid fds chain).2.processes = pre ++ p :: post →
      p.fork.command.inputMode = .pipe → ∃ q ∈ pre.getLast?,
        q.table.lookup stdoutFileno = some (.pipe q.fork.position .write) ∧
        p.table.lookup stdinFileno = some (.pipe q.fork.position .read) ∧
        ∀ r ∈ (runSystem kernel child pipeid fds chain).2.processes, ∀ fd,
          r.table.lookup fd = some (.pipe q.fork.position .write) → r = q := by
  have hj := joined_of_fed hkernel hchild pipeid hstdin hstdout (fed_of_neverSkips hkernel pipeid fds hchain hnever)
  obtain ⟨hwriters, _⟩ := runSystem_confined kernel child pipeid fds chain
  intro pre p post hprocesses hpipe
  obtain ⟨q, hq, hmode, hin⟩ := hj.inputs pre p post hprocesses hpipe
  have hmem : q ∈ (runSystem kernel child pipeid fds chain).2.processes := by
    rw [hprocesses]
    exact List.mem_append_left _ (List.mem_of_getLast? hq)
  refine ⟨q, hq, hj.outputs q hmem hmode, hin, fun r hr fd hfd => hwriters.unique hr hmem ?_⟩
  exact (hwriters.writer r hr fd _ hfd).1.symm

/-- `ls | cat`. -/
theorem pipelines_end_two : ∃ q p, (runSystem (fun _ => {}) (fun _ => obliging) ⟨0, 0⟩ {0, 1, 2} lsCat).2.processes = [q, p] ∧
    ∃ q' ∈ [q].getLast?, q'.table.lookup stdoutFileno = some (.pipe q'.fork.position .write) ∧
      p.table.lookup stdinFileno = some (.pipe q'.fork.position .read) ∧
      ∀ r ∈ (runSystem (fun _ => {}) (fun _ => obliging) ⟨0, 0⟩ {0, 1, 2} lsCat).2.processes, ∀ fd,
        r.table.lookup fd = some (.pipe q'.fork.position .write) → r = q' := by
  refine ⟨_, _, rfl, ?_⟩
  exact pipelines_end (show Succeeds fun _ => {} from fun _ => ⟨rfl, rfl⟩) (fun _ => obliging_serves) ⟨0, 0⟩
    (show stdinFileno ∈ ({0, 1, 2} : Finset Int) by decide) (show stdoutFileno ∈ ({0, 1, 2} : Finset Int) by decide)
    lsCat_matchesUp lsCat_neverSkips [_] _ [] rfl rfl

end Executor

end UnixSysProg.Osh
