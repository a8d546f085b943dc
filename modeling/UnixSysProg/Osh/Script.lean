/-
Scripts: what a session runs of lines that are written down command by command. The evaluation is that of the
text: a connector decides by the status of the last command that ran, a pipeline runs as a whole or not at
all, and an `exit` ends everything. The session follows it as long as the evaluation never passes over two
commands in a row and comes to no more than twenty commands in a line.
-/
import UnixSysProg.Osh.Session
import UnixSysProg.Osh.ShortCircuit
import UnixSysProg.Osh.RoundTrip

namespace UnixSysProg.Osh

open UnixSysProg.Lib

/-! ## Evaluation of the text -/

def Segment.isExit (seg : Segment) : Bool := seg.words.head?.map strncpy = some exitCommand

/-- The connector lets the next segment run: behind a pipe, with the segment in front of it. -/
def Proceeds (connector : RunNextCommandSymbol) (last : Int) (ran : Bool) : Prop :=
  if connector = .redirPipe then ran = true else Runs connector last

instance (connector : RunNextCommandSymbol) (last : Int) (ran : Bool) : Decidable (Proceeds connector last ran) :=
  inferInstanceAs (Decidable (if connector = .redirPipe then ran = true else Runs connector last))

/-- The positions that run of the segments from position `n` on, behind a connector, a status and a segment that
has run or not, and whether they come to an `exit`. -/
def evaluateLine (rval : Nat → Int) : List Segment → Nat → RunNextCommandSymbol → Int → Bool → List Nat × Bool
  | [], _, _, _, _ => ([], false)
  | seg :: segs, n, connector, last, ran =>
    if Proceeds connector last ran then
      if seg.isExit then ([], true)
      else
        let rest := evaluateLine rval segs (n + 1) seg.ending.runNextCommand (rval n) true
        (n :: rest.1, rest.2)
    else evaluateLine rval segs (n + 1) seg.ending.runNextCommand last false

/-- The evaluation does not pass over two segments in a row. -/
def steady (rval : Nat → Int) : List Segment → Nat → RunNextCommandSymbol → Int → Bool → Bool
  | [], _, _, _, _ => true
  | seg :: segs, n, connector, last, ran =>
    if Proceeds connector last ran then
      seg.isExit || steady rval segs (n + 1) seg.ending.runNextCommand (rval n) true
    else
      (segs.isEmpty || decide (Proceeds seg.ending.runNextCommand last false)) &&
        steady rval segs (n + 1) seg.ending.runNextCommand last false

namespace Line

variable (l : Line) (rval : Nat → Int)

/-- The positions that run of a line, and whether it comes to an `exit`. -/
def evaluate : List Nat × Bool := evaluateLine rval l.segments 0 .execAny 0 true

/-- The executor gets through the line, with these statuses, without missing a command. -/
structure Followed : Prop where
  steady : steady rval l.segments 0 .execAny 0 true = true
  passes : (l.evaluate rval).1.length + (l.evaluate rval).2.toNat ≤ 20

end Line

/-- What runs of the lines from line `j` on, `k` of them at most, and whether they come to an `exit`. -/
def evaluateScript (rval : Nat → Nat → Int) : Nat → Nat → List Line → List (Nat × Nat) × Bool
  | 0, _, _ => ([], false)
  | _ + 1, _, [] => ([], false)
  | k + 1, j, l :: lines =>
    let (positions, exits) := l.evaluate (rval j)
    if exits then (positions.map (j, ·), true)
    else
      let rest := evaluateScript rval k (j + 1) lines
      (positions.map (j, ·) ++ rest.1, rest.2)

theorem proceeds_true {connector : RunNextCommandSymbol} {last : Int} : Proceeds connector last true ↔ Runs connector last := by
  unfold Proceeds
  split_ifs with h
  · simp [h, Runs]
  · rfl

/-! ## The chain of a line -/

/-- What the executor looks at in the command of a segment. -/
structure Stands (seg : Segment) (c : Command) : Prop where
  exit : c.isCommandExit = some seg.isExit
  piped : c.outputMode = .pipe ↔ seg.piped = true
  connector : c.runNextCommand = seg.ending.runNextCommand

theorem Segment.Denotes.stands {fed : Bool} {seg : Segment} {c : Command} (h : seg.Denotes fed c) (hwritten : seg.Written) :
    Stands seg c := by
  refine ⟨?_, h.toPipe, h.runNextCommand fun x hx => (hwritten.files x hx).noSymbol⟩
  obtain ⟨word, words, hwords⟩ := List.exists_cons_of_ne_nil hwritten.words
  simp [Command.isCommandExit, Command.getExecutable, h.argv, hwords, Segment.isExit]

/-- A segment that ends in a pipe is not the last one. -/
theorem Joined.piped_next {seg : Segment} {segs : List Segment} (h : Joined (seg :: segs)) (hpiped : seg.piped = true) :
    segs ≠ [] := by
  rintro rfl
  simp [Segment.piped, show seg.ending = .endOfLine from h] at hpiped

theorem Joined.tail {seg : Segment} {segs : List Segment} (h : Joined (seg :: segs)) : segs = [] ∨ Joined segs := by
  cases segs with
  | nil => exact .inl rfl
  | cons seg' segs => exact .inr h.2

namespace Executor

variable {kernel : Nat → Answers} {s : Shell}

/-- The shell after a pass over a command that writes into no pipe, or into one that can be made. -/
theorem pass_stands (hkernel : Succeeds kernel) {seg : Segment} {segs : List Segment} {c : Command} {chain : List Command}
    (hcurr : s.curr = c :: chain) (hc : Stands seg c) (hchain : List.Forall₂ Stands segs chain)
    (hnext : seg.piped = true → segs ≠ []) (hexit : seg.isExit = false) :
    ∃ s', pass kernel s = .ok s' ∧ s'.forks.map Fork.position = s.forks.map Fork.position ++ [s.position] ∧
      s'.exitShell = s.exitShell ∧
      if Runs seg.ending.runNextCommand (kernel s.position).childRval then
        s'.position = s.position + 1 ∧ List.Forall₂ Stands segs s'.curr
      else s'.position = s.position + 2 ∧ List.Forall₂ Stands segs.tail s'.curr := by
  have hnot : c.isCommandExit = some false := hc.exit.trans (by rw [hexit])
  have hskips : Skips (kernel s.position).childRval c ↔ ¬ Runs seg.ending.runNextCommand (kernel s.position).childRval := by
    rw [skips_iff, hc.connector]
  by_cases hmode : c.outputMode = .pipe
  · -- the reader is there, and the writer decides nothing
    have hpiped := hc.piped.1 hmode
    have hruns : Runs seg.ending.runNextCommand (kernel s.position).childRval := by
      have hend : seg.ending = .connector .pipe := by simpa [Segment.piped] using hpiped
      simp [hend, Ending.runNextCommand, Connector.runNextCommand, Runs]
    cases hchain with
    | nil => exact absurd rfl (hnext hpiped)
    | @cons seg' d segs' rest hd hrest =>
      refine ⟨_, (Passed.piped hcurr hnot hmode (hkernel _).1 (hkernel _).2).pass, ?_, ?_, ?_⟩
      · simp [parent_eq]
      · simp [parent_eq]
      · rw [if_pos hruns, parent_eq]
        have hstay : ¬ Skips (kernel s.position).childRval c := fun h => hskips.1 h hruns
        simp only [skips_outputFid, if_neg hstay]
        exact ⟨trivial, .cons ⟨hd.exit, hd.piped, hd.connector⟩ hrest⟩
  · refine ⟨_, (Passed.plain hcurr hnot hmode (hkernel _).2).pass, ?_, ?_, ?_⟩
    · simp [parent_eq]
    · simp [parent_eq]
    · rw [parent_eq]
      by_cases hruns : Runs seg.ending.runNextCommand (kernel s.position).childRval
      · have hstay : ¬ Skips (kernel s.position).childRval c := fun h => hskips.1 h hruns
        simpa only [if_pos hruns, if_neg hstay, true_and] using hchain
      · simp only [if_neg hruns, if_pos (hskips.2 hruns), true_and]
        cases hchain with
        | nil => exact .nil
        | cons _ hrest => exact hrest

/-- The loop forks what the evaluation runs, and comes to an `exit` where the evaluation does. -/
theorem loop_evaluates (hkernel : Succeeds kernel) (k : Nat) : ∀ {s : Shell} {segs : List Segment}
    {connector : RunNextCommandSymbol} {last : Int} {ran : Bool}, List.Forall₂ Stands segs s.curr →
    (segs = [] ∨ Joined segs) → (segs ≠ [] → Proceeds connector last ran) → s.exitShell = false →
    steady (fun n => (kernel n).childRval) segs s.position connector last ran = true →
    (evaluateLine (fun n => (kernel n).childRval) segs s.position connector last ran).1.length +
      (evaluateLine (fun n => (kernel n).childRval) segs s.position connector last ran).2.toNat ≤ k →
    ∃ t, loop (pass kernel) (fun s => (.returned, s)) k s = (.returned, t) ∧
      t.forks.map Fork.position = s.forks.map Fork.position ++
        (evaluateLine (fun n => (kernel n).childRval) segs s.position connector last ran).1 ∧
      t.exitShell = (evaluateLine (fun n => (kernel n).childRval) segs s.position connector last ran).2 := by
  induction k with
  | zero =>
    intro s segs connector last ran _ _ _ hexit _ hpasses
    obtain ⟨hlen, hexits⟩ := Nat.add_eq_zero_iff.1 (Nat.le_zero.1 hpasses)
    refine ⟨s, rfl, by simp [List.length_eq_zero_iff.1 hlen], ?_⟩
    rw [hexit, Bool.toNat_eq_zero.1 hexits]
  | succ k ih =>
    intro s segs connector last ran hstands hjoined hproceeds hexit hsteady hpasses
    generalize hcurr : s.curr = chain at hstands
    cases hstands with
    | nil =>
      refine ⟨s, loop_succ_error (by simp only [pass, hcurr]), by simp [evaluateLine], ?_⟩
      simpa [evaluateLine] using hexit
    | @cons seg c segs chain hc hchain =>
      have hgo := hproceeds (by simp)
      have hjoined := hjoined.resolve_left (by simp)
      rw [steady, if_pos hgo] at hsteady
      rw [evaluateLine, if_pos hgo] at hpasses ⊢
      by_cases hseg : seg.isExit = true
      · -- the pass finds the `exit` and forks nothing
        have hcexit : c.isCommandExit = some true := hc.exit.trans (by rw [hseg])
        refine ⟨{ s with exitShell := true }, loop_succ_error (by simp only [pass, hcurr, hcexit]), ?_, ?_⟩
        · simp [hseg]
        · simp [hseg]
      · rw [if_neg hseg] at hpasses ⊢
        have hseg : seg.isExit = false := by simpa using hseg
        rw [hseg, Bool.false_or] at hsteady
        obtain ⟨s', hpass, hforks, hshell, hnext⟩ :=
          pass_stands hkernel hcurr hc hchain hjoined.piped_next hseg
        rw [loop_succ_ok hpass]
        split_ifs at hnext with hruns
        · obtain ⟨hpos, hchain'⟩ := hnext
          rw [← hpos] at hsteady hpasses ⊢
          obtain ⟨t, ht, htforks, htexit⟩ := ih hchain' hjoined.tail (fun _ => proceeds_true.2 hruns)
            (hshell.trans hexit) hsteady (by simp only [List.length_cons] at hpasses; omega)
          exact ⟨t, ht, by simp [htforks, hforks], htexit⟩
        · obtain ⟨hpos, hchain'⟩ := hnext
          cases segs with
          | nil =>
            obtain ⟨t, ht, htforks, htexit⟩ := @ih s' [] connector last ran hchain' (.inl rfl)
              (by simp) (hshell.trans hexit) rfl (by simp [evaluateLine])
            exact ⟨t, ht, by simp [htforks, hforks, evaluateLine], by simpa [evaluateLine] using htexit⟩
          | cons seg' segs =>
            -- the evaluation passes over the same segment, and goes on with the one behind it
            have hskip : ¬ Proceeds seg.ending.runNextCommand (kernel s.position).childRval true := mt proceeds_true.1 hruns
            rw [steady, if_neg hskip, Bool.and_eq_true, Bool.or_eq_true, decide_eq_true_eq, List.isEmpty_iff] at hsteady
            rw [evaluateLine, if_neg hskip] at hpasses ⊢
            have hpos' : s.position + 1 + 1 = s'.position := hpos.symm
            rw [hpos'] at hsteady hpasses ⊢
            rw [List.tail_cons] at hchain'
            obtain ⟨t, ht, htforks, htexit⟩ := ih hchain' (hjoined.2).tail (fun hne => hsteady.1.resolve_left hne)
              (hshell.trans hexit) hsteady.2 (by simp only [List.length_cons] at hpasses; omega)
            exact ⟨t, ht, by simp [htforks, hforks], htexit⟩

end Executor

/-! ## Scripts -/

namespace Session

variable {fuel : Nat} {lines : List Line} {kernel : Nat → Nat → Answers} {pipeid : Nat → PipeId} {s : Session}

theorem loop_exited (input : List Word) (k : Nat) (hexit : s.exitShell = true) :
    loop (pass fuel input kernel pipeid) (fun s => (.returned, s)) k s = (.returned, s) := by
  cases k with
  | zero => rfl
  | succ k => exact loop_succ_error (by simp [pass, hexit])

variable (pipeid) in
theorem pass_line (hkernel : ∀ n, Executor.Succeeds (kernel n)) {input : List Word} {l : Line}
    (hline : readInput input s.lines = l.render) (hfuel : l.tokens.length < fuel) (hfed : s.parser.fed = false)
    (hexit : s.exitShell = false) (hfollowed : l.Followed fun n => (kernel s.lines n).childRval) :
    ∃ s', pass fuel input kernel pipeid s = .ok s' ∧ s'.lines = s.lines + 1 ∧ s'.parser.fed = false ∧
      s'.exitShell = (l.evaluate fun n => (kernel s.lines n).childRval).2 ∧
      s'.forks.map (fun f => (f.1, f.2.position)) = s.forks.map (fun f => (f.1, f.2.position)) ++
        (l.evaluate fun n => (kernel s.lines n).childRval).1.map (s.lines, ·) := by
  obtain ⟨result, hparse, hstatus, hparsed, hnext⟩ := Parser.parseLine_render l hfed hfuel
  rw [← hline] at hparse
  have hstands : List.Forall₂ Stands l.segments result.command :=
    hparsed.commands.forall₂ fun seg hseg fed c hc => hc.stands (l.written seg hseg)
  obtain ⟨t, ht, hforks, hshell⟩ := Executor.loop_evaluates (hkernel s.lines) 20
    (s := Executor.start (pipeid s.lines) s.fds result.command) hstands (.inr l.joined)
    (fun _ => proceeds_true.2 (show Runs .execAny 0 from trivial)) rfl hfollowed.steady hfollowed.passes
  rw [← Executor.executeCommandList_eq] at ht
  refine ⟨_, (Passed.executed hexit hparse hstatus ht).pass, rfl, hnext, ?_, ?_⟩
  · show (s.exitShell || t.exitShell) = _
    rw [hexit, Bool.false_or, hshell]
    rfl
  · have hpositions : t.forks.map Fork.position = (l.evaluate fun n => (kernel s.lines n).childRval).1 := by
      simpa [Executor.start, Line.evaluate] using hforks
    rw [← hpositions]
    simp [Session.executed, parsed, Function.comp_def]

variable (kernel pipeid) in
/-- Behind the end of the input the lines are empty, and nothing happens any more. -/
theorem loop_blank (hfuel : 0 < fuel) {input : List Word} (k : Nat) : ∀ {s : Session}, input.length ≤ s.lines →
    s.exitShell = false → ∃ t, loop (pass fuel input kernel pipeid) (fun s => (.returned, s)) k s = (.returned, t) ∧
      t.forks = s.forks ∧ t.exitShell = false := by
  induction k with
  | zero => exact fun {s} _ hexit => ⟨s, rfl, rfl, hexit⟩
  | succ k ih =>
    intro s hlen hexit
    have hblank : readInput input s.lines = [] := by simp [readInput, hlen]
    have hparse : s.parser.parseLine fuel (readInput input s.lines) = some ⟨.success, [], s.parser⟩ := by
      rw [hblank]
      exact Parser.parseLine_eq [] hfuel
    rw [loop_succ_ok (Passed.executed hexit hparse rfl rfl).pass]
    obtain ⟨t, ht, hforks, hshell⟩ := ih (s := (s.parsed ⟨.success, [], s.parser⟩).executed s.lines
      (Executor.start (pipeid s.lines) s.fds [])) (Nat.le_succ_of_le hlen) (by rw [executed, parsed, hexit]; rfl)
    exact ⟨t, ht, by simpa [Session.executed, parsed, Executor.start] using hforks, hshell⟩

variable (pipeid) in
theorem loop_script (hkernel : ∀ n, Executor.Succeeds (kernel n)) (hpos : 0 < fuel) {input : List Word} (k : Nat) :
    ∀ {s : Session} {lines : List Line}, input.drop s.lines = lines.map Line.render →
      (∀ l ∈ lines, l.tokens.length < fuel) →
      (∀ (j : Nat) (l : Line), lines[j]? = some l → l.Followed fun n => (kernel (s.lines + j) n).childRval) →
      s.parser.fed = false → s.exitShell = false →
      ∃ t, loop (pass fuel input kernel pipeid) (fun s => (.returned, s)) k s = (.returned, t) ∧
        t.forks.map (fun f => (f.1, f.2.position)) = s.forks.map (fun f => (f.1, f.2.position)) ++
          (evaluateScript (fun j n => (kernel j n).childRval) k s.lines lines).1 ∧
        t.exitShell = (evaluateScript (fun j n => (kernel j n).childRval) k s.lines lines).2 := by
  induction k with
  | zero => exact fun {s} _ _ _ _ _ hexit => ⟨s, rfl, by simp [evaluateScript], hexit⟩
  | succ k ih =>
    intro s lines hinput hfuel hfollowed hfed hexit
    cases lines with
    | nil =>
      obtain ⟨t, ht, hforks, hshell⟩ := loop_blank kernel pipeid hpos (k + 1) (List.drop_eq_nil_iff.1 hinput) hexit
      exact ⟨t, ht, by simp [hforks, evaluateScript], hshell⟩
    | cons l lines =>
      have hline : readInput input s.lines = l.render := by
        have hget : (input.drop s.lines)[0]? = some l.render := by rw [hinput]; rfl
        rw [List.getElem?_drop, Nat.add_zero] at hget
        simp [readInput, hget]
      obtain ⟨hl, hlines⟩ := List.forall_mem_cons.1 hfuel
      obtain ⟨s', hpass, hnext, hfed', hshell, hforks⟩ :=
        pass_line pipeid hkernel hline hl hfed hexit (hfollowed 0 l rfl)
      rw [loop_succ_ok hpass, evaluateScript]
      dsimp only
      split_ifs with hexits
      · refine ⟨s', loop_exited input k (hshell.trans hexits), hforks, hshell.trans hexits⟩
      · have hdrop : input.drop s'.lines = lines.map Line.render := by
          rw [hnext, ← List.tail_drop, hinput, List.map_cons, List.tail_cons]
        have hrest : ∀ (j : Nat) (l' : Line), lines[j]? = some l' →
            l'.Followed fun n => (kernel (s'.lines + j) n).childRval := by
          intro j l' hj
          rw [hnext, Nat.add_assoc, Nat.add_comm 1]
          exact hfollowed (j + 1) l' (by simpa using hj)
        obtain ⟨t, ht, htforks, htshell⟩ := ih hdrop hlines hrest hfed' (hshell.trans (by simpa using hexits))
        rw [hnext] at htforks htshell
        exact ⟨t, ht, by simp [htforks, hforks], htshell⟩

/-- A script of any length, fed to a session line by line: with all pipes and children made, the session forks
exactly the commands that the evaluation of the text runs in its first 23 lines, in this order, and ends early
exactly when the evaluation comes to an `exit`, provided that the executor can follow each line. -/
theorem run_script (hkernel : ∀ n, Executor.Succeeds (kernel n)) (hpos : 0 < fuel)
    (hfuel : ∀ l ∈ lines, l.tokens.length < fuel)
    (hfollowed : ∀ (j : Nat) (l : Line), lines[j]? = some l → l.Followed fun n => (kernel j n).childRval) (fds : Finset Int) :
    ∃ t, run fuel (lines.map Line.render) kernel pipeid fds = (.returned, t) ∧
      t.forks.map (fun f => (f.1, f.2.position)) = (evaluateScript (fun j n => (kernel j n).childRval) 23 0 lines).1 ∧
      t.exitShell = (evaluateScript (fun j n => (kernel j n).childRval) 23 0 lines).2 := by
  have hinput : (lines.map Line.render).drop (start fds).lines = lines.map Line.render := List.drop_zero
  obtain ⟨t, ht, hforks, hshell⟩ := loop_script pipeid hkernel hpos 23 hinput hfuel
    (fun j l hj => by simpa [start] using hfollowed j l hj) rfl rfl
  exact ⟨t, ht, by simpa [start] using hforks, hshell⟩

def abcd : Line where
  segments := [⟨[['a']], [], .connector .onFailure⟩, ⟨[['b']], [], .connector .any⟩, ⟨[['c']], [], .connector .pipe⟩,
    ⟨[['d']], [], .endOfLine⟩]
  joined := ⟨⟨_, rfl⟩, ⟨_, rfl⟩, ⟨_, rfl⟩, rfl⟩
  length_le := by decide
  written := by decide
  accepted := ⟨⟨by decide, by decide, by decide⟩, by decide, ⟨by decide, by decide, by decide⟩, by decide,
    ⟨by decide, by decide, by decide⟩, by decide, ⟨by decide, by decide, by decide⟩, by decide, trivial⟩

def exitLine : Line where
  segments := [⟨[exitCommand], [], .endOfLine⟩]
  joined := rfl
  length_le := by decide
  written := by decide
  accepted := ⟨⟨by decide, by decide, by decide⟩, by decide, trivial⟩

/-- Where `a` succeeds `b` is not run, and a line behind the `exit` not even read. -/
theorem run_script_exit : ∃ t, run 10 ([abcd, exitLine, abcd].map Line.render) (fun _ _ => {}) (fun _ => ⟨0, 0⟩) {0, 1, 2} =
    (.returned, t) ∧ t.forks.map (fun f => (f.1, f.2.position)) = [(0, 0), (0, 2), (0, 3)] ∧ t.exitShell = true :=
  run_script (fun _ _ => ⟨rfl, rfl⟩) (by decide) (by decide)
    (fun j l hj => by
      match j with
      | 0 | 2 => cases hj; exact ⟨by decide, by decide⟩
      | 1 => cases hj; exact ⟨by decide, by decide⟩
      | j + 3 => simp at hj) {0, 1, 2}

end Session

end UnixSysProg.Osh
