/-
What a line leaves behind in the shell. A command that writes into no pipe is waited for, and no descriptor is
opened for it. One that writes into a pipe costs the shell a descriptor, since it closes only the end that is
written into, and a child, since it does not wait for it.
-/
import UnixSysProg.Osh.Pipeline

namespace UnixSysProg.Osh

open UnixSysProg.Lib

/-! ## The chain of a well-formed line -/

/-- Every command but the last one writes into a pipe or has a connector that waits for it. -/
def Connected : List Command → Prop
  | [] => True
  | c :: chain => (chain ≠ [] → c.outputMode = .pipe ∨ c.isWaitForChild = true) ∧ Connected chain

/-- Every segment but the last one ends in a connector. -/
def Linked : List Segment → Prop
  | [] => True
  | seg :: segs => (segs ≠ [] → ∃ connector, seg.ending = .connector connector) ∧ Linked segs

theorem splitEnding_endOfLine {tokens : List Word} (h : (splitEnding tokens).1 = .endOfLine) : (splitEnding tokens).2 = [] := by
  cases tokens with
  | nil => rfl
  | cons token rest =>
    simp only [splitEnding] at h
    split at h <;> simp at h

theorem linked_segments : ∀ (n : Nat) (tokens : List Word), Linked (segments n tokens)
  | 0, _ => trivial
  | n + 1, tokens => by
    by_cases hne : tokens = []
    · subst hne
      trivial
    · rw [segments_succ n hne]
      split
      · exact ⟨fun h => absurd rfl h, trivial⟩
      · rename_i hword
        refine ⟨fun hrest => ?_, linked_segments n _⟩
        cases hend : (splitSegment tokens).1.ending with
        | connector connector => exact ⟨connector, rfl⟩
        | word => exact absurd hend hword
        | endOfLine =>
          have hnone : (splitSegment tokens).2 = [] := splitEnding_endOfLine hend
          rw [hnone] at hrest
          cases n <;> exact absurd rfl hrest

theorem DenotesAll.connected {fed : Bool} {segs : List Segment} {chain : List Command} (h : DenotesAll fed segs chain)
    (hclean : ∀ seg ∈ segs, seg.Clean) (hlinked : Linked segs) : Connected chain := by
  induction h with
  | nil => trivial
  | @cons fed seg segs c cs hdenotes hall ih =>
    obtain ⟨hseg, hsegs⟩ := List.forall_mem_cons.1 hclean
    refine ⟨fun hne => ?_, ih hsegs hlinked.2⟩
    obtain ⟨connector, hend⟩ := hlinked.1 fun hnil => hne (by subst hnil; cases hall; rfl)
    have hrun := hdenotes.runNextCommand fun x hx => (hseg.files x hx).2
    rw [hend] at hrun
    cases connector with
    | pipe => exact .inl (hdenotes.toPipe.2 (by simp [Segment.piped, hend]))
    | any | onSuccess | onFailure =>
      exact .inr (by simp [Command.isWaitForChild, hrun, Ending.runNextCommand, Connector.runNextCommand])

/-- A chain that the executor gets through. -/
structure Runnable (chain : List Command) : Prop where
  commands : ∀ c ∈ chain, c.Safe
  pipes : PipesMatch chain
  connected : Connected chain

theorem Runnable.next {c : Command} {chain : List Command} (h : Runnable (c :: chain)) : Runnable chain :=
  ⟨fun d hd => h.commands d (List.mem_cons_of_mem _ hd), h.pipes.2, h.connected.2⟩

theorem Runnable.tail {chain : List Command} (h : Runnable chain) : Runnable chain.tail := by
  cases chain with
  | nil => exact h
  | cons c chain => exact h.next

/-- An accepted line that is well formed has a runnable chain. -/
theorem runnable_of_parseLine {p : Parser} {fuel : Nat} {buffer : Word} {result : Result}
    (hparse : p.parseLine fuel buffer = some result) (hstatus : result.status = .success)
    (hwell : WellFormed (lineSegments buffer)) : Runnable result.command := by
  have hparsed := (Parser.parseLine_iff buffer result).1 ⟨fuel, hparse⟩
  have hblank : ¬ p.ReadsBlank (lineSegments buffer) := by
    rintro ⟨seg, hseg, _, hwords⟩
    exact (hwell.1 seg (List.mem_of_mem_head? hseg)).words hwords
  have haccepted := (accepted_of_parse hparsed hstatus).resolve_left hblank
  obtain ⟨chain, q, hchain, hall, _⟩ := parse_of_accepted haccepted hblank
  cases hparsed.symm.trans hchain
  have hsafe := hall.chainSafe_iff.2 hwell
  exact ⟨hsafe.commands, hsafe.pipes, hall.connected hwell.1 (linked_segments ..)⟩

namespace Executor

variable {kernel : Nat → Answers} {s s' t : Shell} {e : Ended} {fds : Finset Int}

/-- All calls of `pipe` and `fork` succeed. -/
def Succeeds (kernel : Nat → Answers) : Prop := ∀ n, (kernel n).pipe = .ok () ∧ (kernel n).fork = true

/-- The pass does not fork a command that writes into a pipe. -/
def ForksNoWriter (s : Shell) : Prop := ∀ c ∈ s.curr.head?, c.isCommandExit = some false → c.outputMode ≠ .pipe

instance (s : Shell) : Decidable (ForksNoWriter s) := inferInstanceAs (Decidable (∀ c ∈ s.curr.head?, _ → _))

/-- The process has the descriptors that it had, and has waited for all its children. -/
structure Balanced (fds : Finset Int) (s : Shell) : Prop where
  descriptors : s.fds = fds
  children : s.children = []

/-- On a runnable chain the loop ends only by returning. -/
theorem returned_of_runnable (hkernel : Succeeds kernel) (hsafe : ∀ c ∈ s.curr, c.Safe) (hpipes : PipesMatch s.curr)
    (h : pass kernel s = .error (e, t)) : e = .returned := by
  cases hcurr : s.curr with
  | nil =>
    simp only [pass, hcurr] at h
    cases h
    rfl
  | cons c next =>
    obtain ⟨word, hword, _⟩ := (hsafe c (by simp [hcurr])).getExecutable
    cases hexit : c.isCommandExit with
    | none => simp [Command.isCommandExit, hword] at hexit
    | some isExit =>
      cases isExit with
      | true =>
        simp only [pass, hcurr, hexit] at h
        cases h
        rfl
      | false =>
        have hforks : ForksNext kernel 1 s.curr s.position :=
          ⟨Nat.one_pos, c, by rw [hcurr]; rfl, hexit, (hkernel _).2⟩
        obtain ⟨s', hpassed⟩ := hforks.passed hpipes
        rw [hpassed.pass] at h
        cases h

theorem Passed.balanced (h : Passed kernel s s') (hs : Balanced fds s) (hrun : Runnable s.curr) (hno : ForksNoWriter s) :
    Balanced fds s' ∧ Runnable s'.curr := by
  cases h with
  | @plain c next hcurr hexit hmode _ =>
    rw [hcurr] at hrun
    have hwait : (c.isWaitForChild || next.isEmpty) = true := by
      cases next with
      | nil => simp
      | cons d rest => simpa using (hrun.connected.1 (by simp)).resolve_left hmode
    rw [parent_eq]
    refine ⟨⟨hs.descriptors, by simp [hwait, hs.children]⟩, ?_⟩
    dsimp only
    split
    · exact hrun.next.tail
    · exact hrun.next
  | piped hcurr hexit hmode _ _ | unpiped hcurr hexit hmode _ _ => exact absurd hmode (hno _ (by rw [hcurr]; rfl) hexit)

/-- A descriptor that is not the write end of the pass's own pipe stays open. -/
theorem Passed.mem_fds (hkernel : Succeeds kernel) (h : Passed kernel s s') {fd : Int} (hfd : fd ∈ s.fds) : fd ∈ s'.fds := by
  cases h with
  | plain => simpa [parent_eq] using hfd
  | piped =>
    have hne : fd ≠ (openPipe s.fds).2 := fun heq => openPipe_write_notMem (heq ▸ hfd)
    simp [parent_eq, hne, hfd]
  | unpiped _ _ _ hpipe _ =>
    rw [(hkernel _).1] at hpipe
    cases hpipe

/-- A descriptor that is open stays open. -/
theorem mem_fds_loop (hkernel : Succeeds kernel) (k : Nat) {fd : Int} (hfd : fd ∈ s.fds) {r : Ended × Shell}
    (hr : loop (pass kernel) (fun s => (Ended.returned, s)) k s = r) (hreturned : r.1 = .returned) : fd ∈ r.2.fds := by
  subst hr
  refine loop_invariant (I := fun t : Shell => fd ∈ t.fds)
    (P := fun r : Ended × Shell => r.1 = .returned → fd ∈ r.2.fds) ?_ ?_ ?_ k hfd hreturned
  · exact fun t t' ht hpass => (pass_ok hpass).mem_fds hkernel ht
  · rintro t ⟨e, t'⟩ ht hpass hret
    show fd ∈ t'.fds
    rwa [((pass_error hpass).returned hret).1]
  · exact fun _ ht _ => ht

/-- The read end of the pipe that a writer is given is never closed. -/
theorem not_balanced_of_writer (hkernel : Succeeds kernel) (k : Nat) (hpipes : PipesMatch s.curr)
    (hwriter : ¬ ForksNoWriter s) : ¬ ((loop (pass kernel) (fun s => (Ended.returned, s)) (k + 1) s).1 = .returned ∧
      Balanced s.fds (loop (pass kernel) (fun s => (Ended.returned, s)) (k + 1) s).2) := by
  rintro ⟨hreturned, hbalanced⟩
  simp only [ForksNoWriter, not_forall, not_not] at hwriter
  obtain ⟨c, hc, hexit, hmode⟩ := hwriter
  obtain ⟨next, hcurr⟩ := List.head?_eq_some_iff.1 hc
  rw [hcurr] at hpipes
  obtain ⟨n, hn, _⟩ := hpipes.1.1 hmode
  obtain ⟨rest, rfl⟩ := List.head?_eq_some_iff.1 hn
  have hpassed := Passed.piped hcurr hexit hmode (hkernel _).1 (hkernel _).2
  rw [loop_succ_ok hpassed.pass] at hreturned hbalanced
  have hread : (openPipe s.fds).1 ∈ (loop (pass kernel) (fun s => (Ended.returned, s)) k _).2.fds :=
    mem_fds_loop hkernel k (by simp [parent_eq, openPipe_write_ne_read.symm]) rfl hreturned
  rw [hbalanced.descriptors] at hread
  exact openPipe_read_notMem hread

/-- On a runnable chain, with all calls succeeding, the shell is as it was exactly when no pass forks a command
that writes into a pipe. -/
theorem balanced_iff_passes (hkernel : Succeeds kernel) (pipeid : PipeId) (fds : Finset Int) {chain : List Command}
    (hrun : Runnable chain) : (∃ s, executeCommandList kernel pipeid fds chain = (.returned, s) ∧ Balanced fds s) ↔
      Passes (pass kernel) (fun _ => ForksNoWriter) 20 (start pipeid fds chain) := by
  rw [executeCommandList_eq]
  have hloop : ((loop (pass kernel) (fun s => (Ended.returned, s)) 20 (start pipeid fds chain)).1 = .returned ∧
      Balanced fds (loop (pass kernel) (fun s => (Ended.returned, s)) 20 (start pipeid fds chain)).2) ↔
        Passes (pass kernel) (fun _ => ForksNoWriter) 20 (start pipeid fds chain) := by
    refine loop_iff_passes (I := fun _ s => Balanced fds s ∧ Runnable s.curr)
      (P := fun r : Ended × Shell => r.1 = .returned ∧ Balanced fds r.2) ?_ ?_ ?_ ?_ 20 ⟨⟨rfl, rfl⟩, hrun⟩
    · exact fun _ s s' hs hno hpass => (pass_ok hpass).balanced hs.1 hs.2 hno
    · rintro _ s ⟨e, t⟩ hs hpass
      have hstopped := pass_error hpass
      have hreturned := returned_of_runnable hkernel hs.2.commands hs.2.pipes hpass
      exact ⟨hreturned, (hstopped.returned hreturned).1.trans hs.1.descriptors, hstopped.children.trans hs.1.children⟩
    · exact fun s hs => ⟨rfl, hs.1⟩
    · rintro k s hs hwriter
      rw [← hs.1.descriptors]
      exact not_balanced_of_writer hkernel k hs.2.pipes hwriter
  rw [← hloop]
  constructor
  · rintro ⟨s, heq, hs⟩
    rw [heq]
    exact ⟨rfl, hs⟩
  · rintro ⟨hreturned, hs⟩
    exact ⟨_, Prod.ext hreturned rfl, hs⟩

/-- A line that is accepted and well formed, on any parser, and any statuses: the shell process is left as it
was, with its descriptors and without a child, exactly when no pass forks a command that writes into a pipe. -/
theorem line_balanced_iff {p : Parser} {fuel : Nat} {buffer : Word} {result : Result}
    (hparse : p.parseLine fuel buffer = some result) (hstatus : result.status = .success)
    (hwell : WellFormed (lineSegments buffer)) {kernel : Nat → Answers} (hkernel : Succeeds kernel) (pipeid : PipeId)
    (fds : Finset Int) :
    (∃ s, executeCommandList kernel pipeid fds result.command = (.returned, s) ∧ Balanced fds s) ↔
      Passes (pass kernel) (fun _ => ForksNoWriter) 20 (start pipeid fds result.command) :=
  balanced_iff_passes hkernel pipeid fds (runnable_of_parseLine hparse hstatus hwell)

/-- `a ; b && c`, where `a` and `c` fail. -/
theorem line_balanced_mixed : ∃ result s, ({} : Parser).parseLine 10 "a ; b && c".toList = some result ∧
    executeCommandList (fun n => { childRval := if n = 1 then 0 else 256 }) ⟨0, 0⟩ {0, 1, 2} result.command =
      (.returned, s) ∧ Balanced {0, 1, 2} s := by
  have hparse : ∃ result, ({} : Parser).parseLine 10 "a ; b && c".toList = some result ∧ result.status = .success ∧
      Passes (pass fun n => { childRval := if n = 1 then 0 else 256 }) (fun _ => ForksNoWriter) 20
        (start ⟨0, 0⟩ {0, 1, 2} result.command) := ⟨_, rfl, rfl, by decide⟩
  obtain ⟨result, hparse, hstatus, hpasses⟩ := hparse
  have hsegments : lineSegments "a ; b && c".toList = [⟨[['a']], [], .connector .any⟩,
      ⟨[['b']], [], .connector .onSuccess⟩, ⟨[['c']], [], .endOfLine⟩] := by rfl
  have hwell : WellFormed (lineSegments "a ; b && c".toList) := by
    rw [hsegments]
    refine ⟨?_, by simp [Segment.piped]⟩
    simp only [List.forall_mem_cons]
    exact ⟨⟨by simp, by decide, by simp⟩, ⟨by simp, by decide, by simp⟩, ⟨by simp, by decide, by simp⟩, by simp⟩
  obtain ⟨s, hs, hbalanced⟩ := (line_balanced_iff hparse hstatus hwell (fun _ => ⟨rfl, rfl⟩) ⟨0, 0⟩ {0, 1, 2}).2 hpasses
  exact ⟨result, s, hparse, hs, hbalanced⟩

/-- `ls | cat`: the read end of the pipe stays open, and `ls` is not waited for. -/
theorem line_not_balanced : ∃ result s, ({} : Parser).parseLine 10 "ls | cat".toList = some result ∧
    result.status = .success ∧ executeCommandList (fun _ => {}) ⟨0, 0⟩ {0, 1, 2} result.command = (.returned, s) ∧
    s.fds = {0, 1, 2, 3} ∧ s.children = [0] ∧ ¬ Balanced {0, 1, 2} s := by
  refine ⟨_, _, rfl, rfl, rfl, by decide, rfl, fun hs => ?_⟩
  have hchildren : [0] = [] := hs.children
  cases hchildren

end Executor

end UnixSysProg.Osh
