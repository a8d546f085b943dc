/-
Which segments are valid, and what the commands of valid ones are. A segment has at most one redirection
of its input, none when it is fed by a pipe, and at most one of its output, none when it ends in a pipe.
-/
import UnixSysProg.Osh.Segment

namespace UnixSysProg.Osh

/-! ## Redirections -/

/-- The mode of an output that is redirected. -/
def Redirection.outputMode : Redirection → OutputMode
  | stdin => .stdout
  | stdout => .fileNew
  | append => .append

theorem Redirection.outputMode_file {r : Redirection} (h : r ≠ stdin) :
    r.outputMode = .fileNew ∨ r.outputMode = .append := by
  cases r with
  | stdin => exact absurd rfl h
  | stdout => exact .inl rfl
  | append => exact .inr rfl

theorem Redirection.outputMode_ne_stdout {r : Redirection} (h : r ≠ stdin) : r.outputMode ≠ .stdout := by
  rcases outputMode_file h with hmode | hmode <;> rw [hmode] <;> decide

def inputs (rs : List (Redirection × Word)) : Nat := rs.countP fun x => x.1 = .stdin

def outputs (rs : List (Redirection × Word)) : Nat := rs.countP fun x => x.1 ≠ .stdin

/-- What redirections make of a command. -/
structure Redirected (rs : List (Redirection × Word)) (c c' : Command) : Prop where
  argv : c'.argv = c.argv
  input : ∀ f, (.stdin, f) ∈ rs → c.inputMode = .stdin ∧ c'.inputMode = .file ∧ c'.inputFilename = f
  noInput : (∀ f, (.stdin, f) ∉ rs) → c'.inputMode = c.inputMode ∧ c'.inputFilename = c.inputFilename
  output : ∀ r f, r ≠ .stdin → (r, f) ∈ rs →
    c.outputMode = .stdout ∧ c'.outputMode = r.outputMode ∧ c'.outputFilename = f
  noOutput : (∀ r f, r ≠ .stdin → (r, f) ∉ rs) → c'.outputMode = c.outputMode ∧ c'.outputFilename = c.outputFilename
  runNextCommand : (∀ x ∈ rs, isTokenSymbol x.2 = false) → c'.runNextCommand = c.runNextCommand

variable {c c₁ c' : Command} {rs : List (Redirection × Word)} {x : Redirection × Word} {fed : Bool} {seg : Segment}

namespace Command

theorem redirect_isSome : (c.redirect x).isSome ↔
    if x.1 = .stdin then c.inputMode = .stdin else c.outputMode = .stdout := by
  obtain ⟨r, f⟩ := x
  cases r with
  | stdin => by_cases h : c.inputMode = .stdin <;> simp [redirect, h]
  | stdout | append => by_cases h : c.outputMode = .stdout <;> simp [redirect, h]

theorem redirected_of_redirect (h : c.redirect x = some c') : Redirected [x] c c' := by
  obtain ⟨r, f⟩ := x
  obtain ⟨run, hrun⟩ := c.setRunNextCommand_eq f
  have hword : isTokenSymbol f = false → run = c.runNextCommand := fun hf => by
    have := hrun c rfl
    rw [c.setRunNextCommand_word hf] at this
    exact (congrArg runNextCommand this).symm
  cases r with
  | stdin =>
    simp only [redirect, hrun] at h
    split_ifs at h with hmode
    cases h
    refine ⟨rfl, by simp_all, by simp, fun r f' hr hx => ?_, fun _ => ⟨rfl, rfl⟩, by simpa using hword⟩
    exact absurd (Prod.mk.inj (List.mem_singleton.1 hx)).1 hr
  | stdout | append =>
    simp only [redirect, hrun] at h
    split_ifs at h with hmode
    cases h
    refine ⟨rfl, by simp, fun _ => ⟨rfl, rfl⟩, by simp_all [Redirection.outputMode], fun hnone => ?_,
      by simpa using hword⟩
    exact absurd (List.mem_singleton_self _) (hnone _ f (by decide))

end Command

theorem Redirected.nil (c : Command) : Redirected [] c c :=
  ⟨rfl, by simp, fun _ => ⟨rfl, rfl⟩, by simp, fun _ => ⟨rfl, rfl⟩, fun _ => rfl⟩

/-- A second redirection of what is redirected already is invalid, so the first ones stay as they are. -/
theorem Redirected.cons (h : Redirected [x] c c₁) (hs : Redirected rs c₁ c') : Redirected (x :: rs) c c' := by
  obtain ⟨r, f⟩ := x
  refine ⟨hs.argv.trans h.argv, ?_, ?_, ?_, ?_, ?_⟩
  · intro g hg
    rcases List.mem_cons.1 hg with hx | hmem
    · cases hx
      obtain ⟨hmode, hfile, hname⟩ := h.input f (List.mem_singleton_self _)
      have hno := hs.noInput fun g' hg' => by
        have := (hs.input g' hg').1
        rw [hfile] at this
        cases this
      exact ⟨hmode, hno.1.trans hfile, hno.2.trans hname⟩
    · obtain ⟨hmode, hafter⟩ := hs.input g hmem
      refine ⟨?_, hafter⟩
      by_cases hr : r = .stdin
      · subst hr
        exact (h.input f (List.mem_singleton_self _)).1
      · rw [← (h.noInput fun g' hg' => hr (Prod.mk.inj (List.mem_singleton.1 hg')).1.symm).1]
        exact hmode
  · intro hnone
    have h1 := h.noInput fun g hg => hnone g (List.mem_cons.2 (.inl (List.mem_singleton.1 hg)))
    have h2 := hs.noInput fun g hg => hnone g (List.mem_cons_of_mem _ hg)
    exact ⟨h2.1.trans h1.1, h2.2.trans h1.2⟩
  · intro r' g hr' hg
    rcases List.mem_cons.1 hg with hx | hmem
    · cases hx
      obtain ⟨hmode, hfile, hname⟩ := h.output r f hr' (List.mem_singleton_self _)
      have hno := hs.noOutput fun r'' g' hr'' hg' => by
        have := (hs.output r'' g' hr'' hg').1
        rw [hfile] at this
        exact Redirection.outputMode_ne_stdout hr' this
      exact ⟨hmode, hno.1.trans hfile, hno.2.trans hname⟩
    · obtain ⟨hmode, hafter⟩ := hs.output r' g hr' hmem
      refine ⟨?_, hafter⟩
      by_cases hr : r = .stdin
      · rw [← (h.noOutput fun r'' g' hr'' hg' => hr'' ((Prod.mk.inj (List.mem_singleton.1 hg')).1.trans hr)).1]
        exact hmode
      · exact (h.output r f hr (List.mem_singleton_self _)).1
  · intro hnone
    have h1 := h.noOutput fun r' g hr' hg => hnone r' g hr' (List.mem_cons.2 (.inl (List.mem_singleton.1 hg)))
    have h2 := hs.noOutput fun r' g hr' hg => hnone r' g hr' (List.mem_cons_of_mem _ hg)
    exact ⟨h2.1.trans h1.1, h2.2.trans h1.2⟩
  · intro hwords
    obtain ⟨hx, hrest⟩ := List.forall_mem_cons.1 hwords
    exact (hs.runNextCommand hrest).trans (h.runNextCommand (List.forall_mem_singleton.2 hx))

theorem redirected_of_foldlM (h : rs.foldlM Command.redirect c = some c') : Redirected rs c c' := by
  induction rs generalizing c with
  | nil => cases h; exact .nil _
  | cons x rs ih =>
    obtain ⟨c₁, hx, hrest⟩ := Option.bind_eq_some_iff.1 h
    exact (Command.redirected_of_redirect hx).cons (ih hrest)

/-- Redirections are valid when they redirect the input and the output once at most, what is redirected
already included. -/
theorem foldlM_redirect_isSome (c : Command) (rs : List (Redirection × Word)) : (rs.foldlM Command.redirect c).isSome ↔
    inputs rs + (if c.inputMode = .stdin then 0 else 1) ≤ 1 ∧
      outputs rs + (if c.outputMode = .stdout then 0 else 1) ≤ 1 := by
  induction rs generalizing c with
  | nil =>
    simp only [List.foldlM_nil, inputs, outputs, List.countP_nil]
    constructor
    · intro _
      constructor <;> split <;> decide
    · exact fun _ => rfl
  | cons x rs ih =>
    have hsome := Command.redirect_isSome (c := c) (x := x)
    have hin : inputs (x :: rs) = inputs rs + if x.1 = .stdin then 1 else 0 := by simp [inputs, List.countP_cons]
    have hout : outputs (x :: rs) = outputs rs + if x.1 = .stdin then 0 else 1 := by
      simp [outputs, List.countP_cons]
    rw [List.foldlM_cons, hin, hout]
    by_cases hr : x.1 = .stdin
    · simp only [hr, if_true] at hsome ⊢
      cases hx : c.redirect x with
      | none =>
        have hmode : ¬ c.inputMode = .stdin := by simpa [hx] using hsome
        simp [hmode]
      | some c₁ =>
        have hred := Command.redirected_of_redirect hx
        obtain ⟨hmode, hfile, _⟩ := hred.input x.2 (List.mem_singleton.2 (by rw [← hr]))
        have hout := (hred.noOutput fun r f hr' hf => hr' (by rw [← hr, ← List.mem_singleton.1 hf])).1
        simp [ih, hmode, hfile, hout]
    · simp only [hr, if_false] at hsome ⊢
      cases hx : c.redirect x with
      | none =>
        have hmode : ¬ c.outputMode = .stdout := by simpa [hx] using hsome
        simp [hmode]
      | some c₁ =>
        have hred := Command.redirected_of_redirect hx
        obtain ⟨hmode, hfile, _⟩ := hred.output x.1 x.2 hr (List.mem_singleton_self _)
        have hin := (hred.noInput fun f hf => hr (by rw [← List.mem_singleton.1 hf])).1
        have hnot : c₁.outputMode ≠ .stdout := by
          rw [hfile]
          exact Redirection.outputMode_ne_stdout hr
        simp [ih, hmode, hnot, hin]

theorem outputs_eq_zero : outputs rs = 0 ↔ ∀ r f, r ≠ .stdin → (r, f) ∉ rs := by
  simp only [outputs, List.countP_eq_zero, Prod.forall]
  constructor
  · intro h r f hr hmem
    exact h r f hmem (by simpa using hr)
  · intro h r f hmem hr
    exact h r f (by simpa using hr) hmem

/-- The output is left alone by redirections of the input only. -/
theorem Redirected.stdout_iff (h : Redirected rs c c') (hc : c.outputMode = .stdout) :
    c'.outputMode = .stdout ↔ outputs rs = 0 := by
  rw [outputs_eq_zero]
  constructor
  · intro hmode r f hr hmem
    rw [(h.output r f hr hmem).2.1] at hmode
    exact Redirection.outputMode_ne_stdout hr hmode
  · exact fun hnone => (h.noOutput hnone).1.trans hc

theorem Command.finish_isSome (ending : Ending) : (c.finish ending).isSome ↔
    (ending = .connector .pipe → c.outputMode = .stdout) := by
  cases ending with
  | connector connector =>
    cases connector with
    | pipe => by_cases h : c.outputMode = .stdout <;> simp [Command.finish, h]
    | any | onSuccess | onFailure => simp [Command.finish]
  | endOfLine | word => simp [Command.finish]

theorem Redirected.fromPipe_iff (h : Redirected rs c c') : c'.inputMode = .pipe ↔ c.inputMode = .pipe := by
  by_cases hf : ∃ f, (Redirection.stdin, f) ∈ rs
  · obtain ⟨f, hf⟩ := hf
    obtain ⟨hbefore, hafter, _⟩ := h.input f hf
    simp [hbefore, hafter]
  · rw [(h.noInput (not_exists.1 hf)).1]

theorem Redirected.toPipe_iff (h : Redirected rs c c') : c'.outputMode = .pipe ↔ c.outputMode = .pipe := by
  by_cases hf : ∃ r f, r ≠ Redirection.stdin ∧ (r, f) ∈ rs
  · obtain ⟨r, f, hr, hf⟩ := hf
    obtain ⟨hbefore, hafter, _⟩ := h.output r f hr hf
    rw [hbefore, hafter]
    cases r <;> decide
  · rw [(h.noOutput fun r f hr hmem => hf ⟨r, f, hr, hmem⟩).1]

/-- What the end of a command makes of it. -/
structure Finished (ending : Ending) (c c' : Command) : Prop where
  argv : c'.argv = c.argv
  inputMode : c'.inputMode = c.inputMode
  inputFilename : c'.inputFilename = c.inputFilename
  outputMode : c'.outputMode = if ending = .connector .pipe then .pipe else c.outputMode
  outputFilename : c'.outputFilename = c.outputFilename
  unredirected : ending = .connector .pipe → c.outputMode = .stdout
  runNextCommand : c.runNextCommand = .none → c'.runNextCommand = ending.runNextCommand

theorem Command.finished_of_finish {ending : Ending} (h : c.finish ending = some c') : Finished ending c c' := by
  have hpipe := (c.finish_isSome ending).1 (by rw [h]; rfl)
  cases ending with
  | connector connector =>
    cases connector with
    | pipe =>
      simp only [finish, hpipe rfl] at h
      cases h
      exact ⟨rfl, rfl, rfl, rfl, rfl, hpipe, fun _ => rfl⟩
    | any | onSuccess | onFailure =>
      cases h
      exact ⟨rfl, rfl, rfl, rfl, rfl, hpipe, fun _ => rfl⟩
  | endOfLine | word =>
    cases h
    exact ⟨rfl, rfl, rfl, rfl, rfl, hpipe, fun hrun => hrun⟩

/-! ## Segments -/

namespace Segment

/-- The segment ends in a pipe. -/
def piped (seg : Segment) : Bool := seg.ending = .connector .pipe

/-- The segment stands for a command, one that is fed by a pipe or not. -/
structure Valid (fed : Bool) (seg : Segment) : Prop where
  words : fed = true → seg.words ≠ []
  inputs : inputs seg.redirections + fed.toNat ≤ 1
  outputs : outputs seg.redirections + seg.piped.toNat ≤ 1

/-- What the command of a segment is. -/
structure Denotes (fed : Bool) (seg : Segment) (c : Command) : Prop where
  argv : c.argv = if seg.words = [] then none else some (seg.words.map strncpy)
  fromPipe : c.inputMode = .pipe ↔ fed = true
  fromFile : ∀ f, (.stdin, f) ∈ seg.redirections → c.inputMode = .file ∧ c.inputFilename = f
  fromStdin : fed = false → (∀ f, (.stdin, f) ∉ seg.redirections) → c.inputMode = .stdin
  noInputFile : (∀ f, (.stdin, f) ∉ seg.redirections) → c.inputFilename = []
  toPipe : c.outputMode = .pipe ↔ seg.piped = true
  toFile : ∀ r f, r ≠ .stdin → (r, f) ∈ seg.redirections → c.outputMode = r.outputMode ∧ c.outputFilename = f
  toStdout : seg.piped = false → (∀ r f, r ≠ .stdin → (r, f) ∉ seg.redirections) → c.outputMode = .stdout
  noOutputFile : (∀ r f, r ≠ .stdin → (r, f) ∉ seg.redirections) → c.outputFilename = []
  runNextCommand : (∀ x ∈ seg.redirections, isTokenSymbol x.2 = false) → c.runNextCommand = seg.ending.runNextCommand

theorem command_isSome : (seg.command fed).isSome ↔ seg.Valid fed := by
  unfold command
  by_cases hwords : fed = true ∧ seg.words = []
  · rw [if_pos hwords]
    simpa using fun hvalid : seg.Valid fed => hvalid.words hwords.1 hwords.2
  · rw [if_neg hwords]
    have hin : (if (seg.start fed).inputMode = .stdin then 0 else 1) = fed.toNat := by cases fed <;> rfl
    have hsome := foldlM_redirect_isSome (seg.start fed) seg.redirections
    have hout : (if (seg.start fed).outputMode = .stdout then 0 else 1) = 0 := rfl
    rw [hin, hout] at hsome
    cases hfold : seg.redirections.foldlM Command.redirect (seg.start fed) with
    | none =>
      have : ¬ seg.Valid fed := fun h => by
        have := hsome.2 ⟨h.inputs, by have := h.outputs; omega⟩
        rw [hfold] at this
        cases this
      simpa using this
    | some c₁ =>
      rw [hfold] at hsome
      obtain ⟨hinputs, houtputs⟩ := hsome.1 rfl
      have hmode := (redirected_of_foldlM hfold).stdout_iff rfl
      rw [Option.bind_eq_bind, Option.bind_some, Command.finish_isSome, hmode]
      constructor
      · intro hpipe
        refine ⟨fun hfed hw => hwords ⟨hfed, hw⟩, hinputs, ?_⟩
        by_cases hpiped : seg.ending = .connector .pipe
        · have := hpipe hpiped
          have hone := Bool.toNat_le seg.piped
          omega
        · have : seg.piped = false := by simp [piped, hpiped]
          rw [this]
          exact houtputs
      · intro hvalid hpiped
        have : seg.piped = true := by simp [piped, hpiped]
        have hout := hvalid.outputs
        rw [this] at hout
        exact Nat.le_zero.1 (Nat.le_of_succ_le_succ hout)

theorem denotes_of_command (h : seg.command fed = some c) : seg.Denotes fed c := by
  unfold command at h
  split_ifs at h with hwords
  obtain ⟨c₁, hfold, hfinish⟩ := Option.bind_eq_some_iff.1 h
  have hred := redirected_of_foldlM hfold
  have hfin := Command.finished_of_finish hfinish
  have hin : (seg.start fed).inputMode = if fed then .pipe else .stdin := rfl
  have hpiped : seg.ending = .connector .pipe ↔ seg.piped = true := by simp [piped]
  constructor
  · exact hfin.argv.trans hred.argv
  · rw [hfin.inputMode, hred.fromPipe_iff, hin]
    cases fed <;> decide
  · intro f hf
    obtain ⟨_, hmode, hname⟩ := hred.input f hf
    exact ⟨hfin.inputMode.trans hmode, hfin.inputFilename.trans hname⟩
  · intro hfed hnone
    rw [hfin.inputMode, (hred.noInput hnone).1, hin, hfed]
    rfl
  · exact fun hnone => hfin.inputFilename.trans (hred.noInput hnone).2
  · rw [hfin.outputMode, ← hpiped]
    split
    · rename_i hpipe
      exact ⟨fun _ => hpipe, fun _ => rfl⟩
    · rename_i hpipe
      exact ⟨fun hmode => (by cases hred.toPipe_iff.1 hmode), fun h => absurd h hpipe⟩
  · intro r f hr hf
    obtain ⟨_, hmode, hname⟩ := hred.output r f hr hf
    -- a pipe would find the output redirected
    have hnot : seg.ending ≠ .connector .pipe := fun hpipe =>
      Redirection.outputMode_ne_stdout hr (hmode.symm.trans (hfin.unredirected hpipe))
    rw [hfin.outputMode, if_neg hnot]
    exact ⟨hmode, hfin.outputFilename.trans hname⟩
  · intro hend hnone
    rw [hfin.outputMode, if_neg fun hpipe => by rw [hpiped.1 hpipe] at hend; cases hend]
    exact (hred.noOutput hnone).1
  · exact fun hnone => hfin.outputFilename.trans (hred.noOutput hnone).2
  · intro hfiles
    exact hfin.runNextCommand (hred.runNextCommand hfiles)

end Segment

/-! ## Lines -/

/-- All segments are valid, and none of them has a word after its redirections. -/
def Accepted : Bool → List Segment → Prop
  | _, [] => True
  | fed, seg :: segs => seg.Valid fed ∧ seg.ending ≠ .word ∧ Accepted seg.piped segs

/-- Among the segments up to the first invalid one there is one with a word after its redirections. -/
def Stuck : Bool → List Segment → Prop
  | _, [] => False
  | fed, seg :: segs => seg.Valid fed ∧ (seg.ending = .word ∨ Stuck seg.piped segs)

/-- The line begins without words, on a parser that has never parsed a command. -/
def Parser.ReadsBlank (p : Parser) (segs : List Segment) : Prop := ∃ seg ∈ segs.head?, p.Blank seg

/-- What the commands of a line are. -/
inductive DenotesAll : Bool → List Segment → List Command → Prop
  | nil {fed : Bool} : DenotesAll fed [] []
  | cons {fed : Bool} {seg : Segment} {segs : List Segment} {c : Command} {cs : List Command} :
      seg.Denotes fed c → DenotesAll seg.piped segs cs → DenotesAll fed (seg :: segs) (c :: cs)

variable {p : Parser} {segs : List Segment} {result : Result}

theorem readsBlank_cons : p.ReadsBlank (seg :: segs) ↔ p.Blank seg := by
  simp [Parser.ReadsBlank]

/-- Once a command is parsed, no segment is blank. -/
theorem not_readsBlank (c : Command) (segs : List Segment) : ¬ Parser.ReadsBlank ⟨some c⟩ segs := by
  rintro ⟨seg, _, hprev, _⟩
  cases hprev

theorem fed_of_denotes (h : seg.Denotes fed c) : Parser.fed ⟨some c⟩ = seg.piped := by
  rw [Bool.eq_iff_iff, ← h.toPipe]
  simp [Parser.fed]

theorem parse_of_readsBlank (h : p.ReadsBlank segs) : parse p segs = some ⟨.success, [], p⟩ := by
  cases segs with
  | nil => rfl
  | cons seg segs => rw [parse, if_pos (readsBlank_cons.1 h)]

theorem parse_eq_none : parse p segs = none ↔ ¬ p.ReadsBlank segs ∧ Stuck p.fed segs := by
  induction segs generalizing p with
  | nil => simp [parse, Stuck]
  | cons seg segs ih =>
    rw [readsBlank_cons, parse, Stuck]
    by_cases hblank : p.Blank seg
    · simp [hblank]
    · rw [if_neg hblank, ← Segment.command_isSome]
      cases hcommand : seg.command p.fed with
      | none => simp
      | some c =>
        have hdenotes := Segment.denotes_of_command hcommand
        by_cases hend : seg.ending = .word
        · simp [hend, hblank]
        · simp [hend, hblank, ih, not_readsBlank, fed_of_denotes hdenotes]

/-- A line that is accepted is parsed to the commands of its segments, and leaves the parser fed by its
last one. -/
theorem parse_of_accepted (h : Accepted p.fed segs) (hblank : ¬ p.ReadsBlank segs) :
    ∃ chain q, parse p segs = some ⟨.success, chain, q⟩ ∧ DenotesAll p.fed segs chain ∧
      q.fed = (segs.getLast?.map Segment.piped).getD p.fed := by
  induction segs generalizing p with
  | nil => exact ⟨[], p, rfl, .nil, rfl⟩
  | cons seg segs ih =>
    obtain ⟨hvalid, hend, haccepted⟩ := h
    obtain ⟨c, hcommand⟩ := Option.isSome_iff_exists.1 (Segment.command_isSome.2 hvalid)
    have hdenotes := Segment.denotes_of_command hcommand
    have hfed := fed_of_denotes hdenotes
    rw [← hfed] at haccepted
    obtain ⟨chain, q, hparse, hall, hq⟩ := ih haccepted (not_readsBlank c segs)
    refine ⟨c :: chain, q, ?_, .cons hdenotes (by rwa [hfed] at hall), ?_⟩
    · rw [parse, if_neg fun hb => hblank (readsBlank_cons.2 hb)]
      simp [hcommand, hend, hparse, Result.prepend]
    · rw [hq, hfed]
      cases segs with
      | nil => rfl
      | cons _ _ => simp [List.getLast?_cons]

theorem accepted_of_parse (h : parse p segs = some result) (hstatus : result.status = .success) :
    p.ReadsBlank segs ∨ Accepted p.fed segs := by
  induction segs generalizing p result with
  | nil => exact .inr trivial
  | cons seg segs ih =>
    by_cases hblank : p.Blank seg
    · exact .inl (readsBlank_cons.2 hblank)
    · right
      rw [parse, if_neg hblank] at h
      cases hcommand : seg.command p.fed with
      | none =>
        rw [hcommand] at h
        cases h
        cases hstatus
      | some c =>
        have hdenotes := Segment.denotes_of_command hcommand
        rw [hcommand] at h
        dsimp only at h
        split_ifs at h with hend
        obtain ⟨rest, hrest, rfl⟩ := Option.map_eq_some_iff.1 h
        have hsuccess : rest.status = .success := by
          unfold Result.prepend at hstatus
          cases hs : rest.status with
          | success => rfl
          | fail => rw [hs] at hstatus; exact hs.symm.trans hstatus
        refine ⟨Segment.command_isSome.1 (by rw [hcommand]; rfl), hend, ?_⟩
        rw [← fed_of_denotes hdenotes]
        exact (ih hrest hsuccess).resolve_left (not_readsBlank c segs)

end UnixSysProg.Osh
