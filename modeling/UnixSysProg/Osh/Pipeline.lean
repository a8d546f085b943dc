/-
Pipelines. A command that reads from a pipe ought to be forked right after the one that writes into it, with
the ends of one pipe between them. The executor keeps to that as long as a pass neither skips a command that
writes into a pipe nor fails to make one: then the reader comes next, with a descriptor that nobody has set.
-/
import UnixSysProg.Osh.Executor
import UnixSysProg.Osh.Safety

namespace UnixSysProg.Osh

open UnixSysProg.Lib

/-! ## Pipelines among the forks -/

/-- The second fork is that of the next command of the chain, and it reads from the pipe that the first one
writes into. -/
structure Fork.Feeds (g f : Fork) : Prop where
  position : g.position + 1 = f.position
  pipe : ∃ pipe, g.pipe = some pipe ∧ g.command.outputFid = pipe.write ∧ f.command.inputFid = pipe.read

/-- Every fork that reads from a pipe comes right after the one that feeds it. -/
def Fed (forks : List Fork) : Prop :=
  ∀ pre f post, forks = pre ++ f :: post → f.command.inputMode = .pipe → ∃ g ∈ pre.getLast?, g.Feeds f

theorem Fed.left {forks forks' : List Fork} (h : Fed (forks ++ forks')) : Fed forks := by
  intro pre f post hforks
  exact h pre f (post ++ forks') (by rw [hforks]; simp)

theorem fed_concat {forks : List Fork} {f : Fork} :
    Fed (forks ++ [f]) ↔ Fed forks ∧ (f.command.inputMode = .pipe → ∃ g ∈ forks.getLast?, g.Feeds f) := by
  constructor
  · intro h
    exact ⟨h.left, h forks f [] rfl⟩
  · rintro ⟨hforks, hlast⟩ pre d post heq
    rcases List.eq_nil_or_concat post with rfl | ⟨post, e, rfl⟩
    · obtain ⟨rfl, hd⟩ := List.append_inj' heq rfl
      cases hd
      exact hlast
    · have heq : forks ++ [f] = (pre ++ d :: post) ++ [e] := by
        rw [heq]
        simp
      obtain ⟨hforks', _⟩ := List.append_inj' heq rfl
      exact hforks pre d post hforks'

/-! ## Chains whose pipes match -/

/-- Pipes match up along the chain, and its first command does not read from one. -/
structure MatchesUp (chain : List Command) : Prop where
  pipes : PipesMatch chain
  head : ∀ c ∈ chain.head?, c.inputMode ≠ .pipe

theorem PipesMatch.tail {chain : List Command} (h : PipesMatch chain) : PipesMatch chain.tail := by
  cases chain with
  | nil => trivial
  | cons c chain => exact h.2

theorem PipesMatch.inputFid {n : Command} {rest : List Command} (h : PipesMatch (n :: rest)) (fid : Int) :
    PipesMatch ({ n with inputFid := fid } :: rest) := h

namespace Executor

variable {kernel : Nat → Answers} {s s' : Shell} {k : Nat}

/-- With `k` passes left the next one forks a command: there is a pass and a command, which is no `exit` and can
be forked. -/
def ForksNext (kernel : Nat → Answers) (k : Nat) (chain : List Command) (n : Nat) : Prop :=
  0 < k ∧ ∃ c ∈ chain.head?, c.isCommandExit = some false ∧ (kernel n).fork = true

/-- When the pass forks a command and then skips one that writes into a pipe, or forks one for which no pipe
could be made, the pass after it forks nothing. -/
def KeepsPipelines (kernel : Nat → Answers) (k : Nat) (s : Shell) : Prop :=
  ∀ c next, s.curr = c :: next → ForksNext kernel (k + 1) s.curr s.position →
    (Skips (kernel s.position).childRval c → (∃ writer ∈ next.head?, writer.outputMode = .pipe) →
      ¬ ForksNext kernel k next.tail (s.position + 2)) ∧
    (¬ Skips (kernel s.position).childRval c → c.outputMode = .pipe → (kernel s.position).pipe ≠ .ok () →
      ¬ ForksNext kernel k next (s.position + 1))

/-- Before a pass: what has been forked is fed, and what comes next, should it be forked and read from a pipe,
finds it set. -/
structure Piping (kernel : Nat → Answers) (k : Nat) (s : Shell) : Prop where
  fed : Fed s.forks
  pipes : PipesMatch s.curr
  reader : ForksNext kernel k s.curr s.position → ∀ c ∈ s.curr.head?, c.inputMode = .pipe →
    ∃ g ∈ s.forks.getLast?, g.Feeds ⟨s.position, c, none⟩

theorem Passed.exists_fork (h : Passed kernel s s') : ∃ c next g, s.curr = c :: next ∧ c.isCommandExit = some false ∧
    (kernel s.position).fork = true ∧ s'.forks = s.forks ++ [g] ∧ g.position = s.position ∧
    g.command.inputMode = c.inputMode ∧ g.command.inputFid = c.inputFid ∧
    ((kernel s.position).pipe ≠ .ok () → g.pipe = none) := by
  cases h with
  | plain hcurr hexit _ hfork =>
    exact ⟨_, _, _, hcurr, hexit, hfork, by rw [parent_eq], rfl, rfl, rfl, fun _ => rfl⟩
  | piped hcurr hexit _ hpipe hfork =>
    exact ⟨_, _, _, hcurr, hexit, hfork, by rw [parent_eq], rfl, rfl, rfl, fun hno => absurd hpipe hno⟩
  | unpiped hcurr hexit _ _ hfork =>
    exact ⟨_, _, _, hcurr, hexit, hfork, by rw [parent_eq], rfl, rfl, rfl, fun _ => rfl⟩

/-- Where a pass goes on: behind the next command if that is skipped, else at the next command, which has been
given the pipe if there is one. -/
inductive GoesOn (kernel : Nat → Answers) (s s' : Shell) (c : Command) (next : List Command) : Prop
  | skips : Skips (kernel s.position).childRval c → s'.position = s.position + 2 → s'.curr = next.tail →
      GoesOn kernel s s' c next
  | unpiped : ¬ Skips (kernel s.position).childRval c →
      (c.outputMode = .pipe → (kernel s.position).pipe ≠ .ok ()) → s'.position = s.position + 1 → s'.curr = next →
      GoesOn kernel s s' c next
  | piped (pipe : PipeId) {n : Command} {rest : List Command} : ¬ Skips (kernel s.position).childRval c →
      (kernel s.position).pipe = .ok () → next = n :: rest → s'.position = s.position + 1 →
      s'.curr = { n with inputFid := pipe.read } :: rest →
      s'.forks = s.forks ++ [⟨s.position, { c with outputFid := pipe.write }, some pipe⟩] →
      GoesOn kernel s s' c next

theorem Passed.goesOn (h : Passed kernel s s') {c : Command} {next : List Command} (hcurr : s.curr = c :: next) :
    GoesOn kernel s s' c next := by
  cases h with
  | plain hcurr' _ hmode _ =>
    cases hcurr'.symm.trans hcurr
    by_cases hskips : Skips (kernel s.position).childRval c
    · exact .skips hskips (by simp [parent_eq, hskips]) (by simp [parent_eq, hskips])
    · exact .unpiped hskips (fun hpipe => absurd hpipe hmode) (by simp [parent_eq, hskips]) (by simp [parent_eq, hskips])
  | piped hcurr' _ _ hpipe _ =>
    cases hcurr'.symm.trans hcurr
    by_cases hskips : Skips (kernel s.position).childRval c
    · exact .skips hskips (by simp [parent_eq, hskips]) (by simp [parent_eq, hskips])
    · exact .piped ⟨(openPipe s.fds).1, (openPipe s.fds).2⟩ hskips hpipe rfl (by simp [parent_eq, hskips])
        (by simp [parent_eq, hskips]) (by simp [parent_eq])
  | unpiped hcurr' _ _ hpipe _ =>
    cases hcurr'.symm.trans hcurr
    by_cases hskips : Skips (kernel s.position).childRval c
    · exact .skips hskips (by simp [parent_eq, hskips]) (by simp [parent_eq, hskips])
    · exact .unpiped hskips (fun _ => by simp [hpipe]) (by simp [parent_eq, hskips]) (by simp [parent_eq, hskips])

theorem Passed.piping (h : Passed kernel s s') (hs : Piping kernel (k + 1) s) (hkeeps : KeepsPipelines kernel k s) :
    Piping kernel k s' := by
  obtain ⟨c, next, g, hcurr, hexit, hfork, hforks, hpos, hmode, hfid, _⟩ := h.exists_fork
  have hnext : ForksNext kernel (k + 1) s.curr s.position := ⟨k.succ_pos, c, by rw [hcurr]; rfl, hexit, hfork⟩
  obtain ⟨hskip, hbroken⟩ := hkeeps c next hcurr hnext
  have hpipes := hs.pipes
  rw [hcurr] at hpipes
  obtain ⟨hmatch, hpipes⟩ := hpipes
  have hfed : Fed s'.forks := by
    rw [hforks, fed_concat]
    refine ⟨hs.fed, fun hpipe => ?_⟩
    obtain ⟨g₀, hg₀, hfeeds⟩ := hs.reader hnext c (by rw [hcurr]; rfl) (hmode ▸ hpipe)
    exact ⟨g₀, hg₀, hfeeds.position.trans hpos.symm, by rw [hfid]; exact hfeeds.pipe⟩
  cases h.goesOn hcurr with
  | skips hskips hpos' hcurr' =>
    refine ⟨hfed, hcurr' ▸ hpipes.tail, fun hforks' d hd hdpipe => ?_⟩
    -- the command in between writes into the pipe that `d` reads from
    rw [hcurr'] at hforks' hd
    rw [hpos'] at hforks'
    refine absurd hforks' (hskip hskips ?_)
    cases next with
    | nil => cases hd
    | cons w rest => exact ⟨w, rfl, hpipes.1.2 ⟨d, hd, hdpipe⟩⟩
  | unpiped hskips hpipe hpos' hcurr' =>
    refine ⟨hfed, hcurr' ▸ hpipes, fun hforks' d hd hdpipe => ?_⟩
    rw [hcurr'] at hforks' hd
    rw [hpos'] at hforks'
    have hcpipe := hmatch.2 ⟨d, hd, hdpipe⟩
    exact absurd hforks' (hbroken hskips hcpipe (hpipe hcpipe))
  | @piped pipe n rest _ _ hn hpos' hcurr' hforks' =>
    subst hn
    refine ⟨hfed, hcurr' ▸ hpipes.inputFid _, fun _ d hd _ => ?_⟩
    rw [hcurr'] at hd
    cases hd
    exact ⟨⟨s.position, { c with outputFid := pipe.write }, some pipe⟩, by simp [hforks'], hpos'.symm, pipe, rfl, rfl, rfl⟩

/-! ## A pipeline cut in the middle -/

/-- Where the pipes match, a command that is there to be forked is. -/
theorem ForksNext.passed (h : ForksNext kernel k s.curr s.position) (hpipes : PipesMatch s.curr) :
    ∃ s', Passed kernel s s' := by
  obtain ⟨_, c, hc, hexit, hfork⟩ := h
  obtain ⟨next, hcurr⟩ := List.head?_eq_some_iff.1 hc
  rw [hcurr] at hpipes
  by_cases hmode : c.outputMode = .pipe
  · cases hpipe : (kernel s.position).pipe with
    | error errno => exact ⟨_, .unpiped hcurr hexit hmode hpipe hfork⟩
    | ok _ =>
      cases next with
      | nil =>
        obtain ⟨n, hn, _⟩ := hpipes.1.1 hmode
        cases hn
      | cons n rest => exact ⟨_, .piped hcurr hexit hmode hpipe hfork⟩
  · exact ⟨_, .plain hcurr hexit hmode hfork⟩

theorem forks_prefix (kernel : Nat → Answers) (k : Nat) (s : Shell) :
    s.forks <+: (loop (pass kernel) (fun s => (Ended.returned, s)) k s).2.forks := by
  refine loop_invariant (I := fun t : Shell => s.forks <+: t.forks)
    (P := fun r : Ended × Shell => s.forks <+: r.2.forks) ?_ ?_ ?_ k
    (List.prefix_refl _)
  · intro t t' ht hpass
    obtain ⟨_, _, g, _, _, _, hforks, _⟩ := (pass_ok hpass).exists_fork
    rw [hforks]
    exact ht.trans (List.prefix_append ..)
  · rintro t ⟨e, t'⟩ ht hpass
    show s.forks <+: t'.forks
    rwa [(pass_error hpass).forks]
  · exact fun _ ht => ht

theorem not_fed_of_reader (hnext : ForksNext kernel k s.curr s.position) (hpipes : PipesMatch s.curr)
    (hreader : ∀ d ∈ s.curr.head?, d.inputMode = .pipe ∧ ∀ g ∈ s.forks.getLast?, ¬ g.Feeds ⟨s.position, d, none⟩) :
    ¬ Fed (loop (pass kernel) (fun s => (Ended.returned, s)) k s).2.forks := by
  intro hfed
  obtain ⟨k, rfl⟩ := Nat.exists_eq_succ_of_ne_zero hnext.1.ne'
  obtain ⟨s', hpassed⟩ := hnext.passed hpipes
  obtain ⟨d, _, f, hcurr, _, _, hforks, hpos, hmode, hfid, _⟩ := hpassed.exists_fork
  obtain ⟨hpipe, hnot⟩ := hreader d (by rw [hcurr]; rfl)
  rw [loop_succ_ok hpassed.pass] at hfed
  obtain ⟨later, hlater⟩ := forks_prefix kernel k s'
  rw [← hlater, hforks] at hfed
  obtain ⟨g, hg, hfeeds⟩ := (fed_concat.1 hfed.left).2 (hmode.trans hpipe)
  exact hnot g hg ⟨hfeeds.position.trans hpos, hfid ▸ hfeeds.pipe⟩

/-- A pass that leaves a reader behind without its pipe spoils the result. -/
theorem not_fed_of_cut (hpipes : PipesMatch s.curr) (hcut : ¬ KeepsPipelines kernel k s) :
    ¬ Fed (loop (pass kernel) (fun s => (Ended.returned, s)) (k + 1) s).2.forks := by
  refine fun hfed => hcut fun c next hcurr hnext => ?_
  obtain ⟨s', hpassed⟩ := hnext.passed hpipes
  obtain ⟨_, _, g, _, _, _, hforks, hpos, _, _, hnone⟩ := hpassed.exists_fork
  rw [loop_succ_ok hpassed.pass] at hfed
  rw [hcurr] at hpipes
  have hlast : ∀ g' ∈ s'.forks.getLast?, g' = g := by
    rw [hforks]
    simp
  constructor
  · rintro hskips ⟨w, hw, hwpipe⟩ hforks'
    obtain ⟨rest, rfl⟩ := List.head?_eq_some_iff.1 hw
    cases hpassed.goesOn hcurr with
    | skips _ hpos' hcurr' =>
      rw [List.tail_cons] at hcurr'
      refine not_fed_of_reader (s := s') (by rwa [hcurr', hpos']) (hcurr' ▸ hpipes.2.2) (fun d hd => ?_) hfed
      obtain ⟨d', hd', hdpipe⟩ := hpipes.2.1.1 hwpipe
      rw [hcurr'] at hd
      cases hd.symm.trans hd'
      refine ⟨hdpipe, fun g' hg' hfeeds => ?_⟩
      have := hfeeds.position
      rw [hlast g' hg', hpos, hpos'] at this
      exact absurd this (Nat.succ_ne_succ_iff.2 (Nat.lt_succ_self _).ne)
    | unpiped hno => exact absurd hskips hno
    | piped _ hno => exact absurd hskips hno
  · intro hno hmode hpipe hforks'
    cases hpassed.goesOn hcurr with
    | skips hskips => exact absurd hskips hno
    | piped _ _ hok => exact absurd hok hpipe
    | unpiped _ _ hpos' hcurr' =>
      refine not_fed_of_reader (s := s') (by rwa [hcurr', hpos']) (hcurr' ▸ hpipes.2) (fun d hd => ?_) hfed
      obtain ⟨d', hd', hdpipe⟩ := hpipes.1.1 hmode
      rw [hcurr'] at hd
      cases hd.symm.trans hd'
      refine ⟨hdpipe, fun g' hg' hfeeds => ?_⟩
      obtain ⟨pipe, hpipe', _⟩ := hfeeds.pipe
      rw [hlast g' hg', hnone hpipe] at hpipe'
      cases hpipe'

/-- A chain whose pipes match up, any connectors and any answers of the kernel: all readers that are forked are
fed exactly when no pass leaves one behind without its pipe. -/
theorem pipelines_kept_iff (kernel : Nat → Answers) (pipeid : PipeId) (fds : Finset Int) {chain : List Command}
    (hchain : MatchesUp chain) :
    Fed (executeCommandList kernel pipeid fds chain).2.forks ↔
      Passes (pass kernel) (KeepsPipelines kernel) 20 (start pipeid fds chain) := by
  rw [executeCommandList_eq]
  refine loop_iff_passes (I := Piping kernel) (P := fun r : Ended × Shell => Fed r.2.forks) ?_ ?_ ?_ ?_ 20 ?_
  · exact fun k s s' hs hkeeps hpass => (pass_ok hpass).piping hs hkeeps
  · rintro k s ⟨e, t⟩ hs hpass
    show Fed t.forks
    rw [(pass_error hpass).forks]
    exact hs.fed
  · exact fun s hs => hs.fed
  · exact fun k s hs hcut => not_fed_of_cut hs.pipes hcut
  · constructor
    · rintro pre f post hforks
      simp [start] at hforks
    · exact hchain.pipes
    · intro _ c hc hpipe
      exact absurd hpipe (hchain.head c hc)

theorem pipelines_kept_two :
    Fed (executeCommandList (fun _ => {}) ⟨0, 0⟩ {0, 1, 2} [{ argv := some ["ls".toList], outputMode := .pipe },
        { argv := some ["cat".toList], inputMode := .pipe }]).2.forks ↔
      Passes (pass fun _ => {}) (KeepsPipelines fun _ => {}) 20 (start ⟨0, 0⟩ {0, 1, 2}
        [{ argv := some ["ls".toList], outputMode := .pipe }, { argv := some ["cat".toList], inputMode := .pipe }]) :=
  pipelines_kept_iff _ _ _ ⟨by simp [PipesMatch], by simp⟩

/-- `false && a | b`: `a` is skipped, and `b` is run to read from a descriptor that nobody has set. -/
theorem pipeline_cut : ∃ result, ({} : Parser).parseLine 10 "false && a | b".toList = some result ∧
    result.status = .success ∧ ∃ s c d, executeCommandList (fun _ => { childRval := 256 }) ⟨0, 0⟩ {0, 1, 2} result.command =
      (.returned, s) ∧ s.forks = [⟨0, c, none⟩, ⟨2, d, none⟩] ∧ d.inputMode = .pipe ∧ d.inputFid = invalidFid ∧
    ¬ Fed s.forks := by
  refine ⟨_, rfl, rfl, _, _, _, rfl, rfl, rfl, rfl, fun hfed => ?_⟩
  obtain ⟨g, hg, hfeeds⟩ := hfed [_] _ [] rfl rfl
  cases hg
  exact absurd hfeeds.position (by decide)

end Executor

end UnixSysProg.Osh
