/-
The parser as an automaton. Of the lines before, a parser remembers no more than whether it has parsed a
command at all, and whether the last one writes into a pipe; a rejected line counts as far as it was parsed.
With the text of the next line this decides whether the parser returns, what it answers, and which segments
the commands of the chain are.
-/
import UnixSysProg.Osh.Simulation
import UnixSysProg.Osh.Grammar
import UnixSysProg.Osh.History

namespace UnixSysProg.Osh

/-! ## The automaton -/

/-- No command yet, or the last one writes into a pipe or does not. -/
inductive Mode
  | fresh
  | plain
  | fed
  deriving DecidableEq

def Parser.mode (p : Parser) : Mode :=
  match p.prevCommand with
  | none => .fresh
  | some c => if c.outputMode = .pipe then .fed else .plain

/-- What is known of a line that has been read. -/
structure Reading where
  status : Status
  fed : Bool
  segments : List Segment
  mode : Mode

instance (fed : Bool) (seg : Segment) : Decidable (seg.Valid fed) := decidable_of_iff _ Segment.command_isSome

namespace Mode

/-- A line from some segment on that is not blank: the answer, and the mode that it leaves. -/
def scan : Mode → List Segment → Option (Status × Mode)
  | m, [] => some (.success, m)
  | m, seg :: segs =>
    if ¬ seg.Valid (m = .fed) then some (.fail, m)
    else if seg.ending = .word then none
    else scan (if seg.piped then .fed else .plain) segs

/-- A line that begins without words is nothing to a parser that has never parsed a command. -/
def ReadsBlank (m : Mode) (segs : List Segment) : Prop := m = .fresh ∧ ∀ seg ∈ segs.head?, seg.words = []

instance (m : Mode) (segs : List Segment) : Decidable (m.ReadsBlank segs) := inferInstanceAs (Decidable (_ ∧ _))

def read (m : Mode) (segs : List Segment) : Option Reading :=
  if m.ReadsBlank segs then some ⟨.success, m = .fed, [], m⟩
  else (m.scan segs).map fun (status, m') => ⟨status, m = .fed, if status = .success then segs else [], m'⟩

/-- The lines that one parser is given, one after the other. -/
def readLines : Mode → List Word → Option (List Reading)
  | _, [] => some []
  | m, buffer :: buffers =>
    match m.read (lineSegments buffer) with
    | none => none
    | some reading => (readLines reading.mode buffers).map (reading :: ·)

end Mode

/-- The result has the answer, the commands and the parser that were read. -/
structure Reading.Describes (reading : Reading) (result : Result) : Prop where
  status : result.status = reading.status
  commands : DenotesAll reading.fed reading.segments result.command
  mode : result.parser.mode = reading.mode

/-! ## The parser follows it -/

namespace Parser

variable {p : Parser} {segs : List Segment}

theorem mode_fed : p.mode = .fed ↔ p.fed = true := by
  unfold mode fed
  cases hprev : p.prevCommand with
  | none => simp
  | some c => by_cases hc : c.outputMode = .pipe <;> simp [hc]

theorem decide_mode_fed : decide (p.mode = .fed) = p.fed := by
  rw [Bool.eq_iff_iff, decide_eq_true_iff, mode_fed]

theorem mode_fresh : p.mode = .fresh ↔ p.prevCommand = none := by
  unfold mode
  cases hprev : p.prevCommand with
  | none => simp
  | some c => by_cases hc : c.outputMode = .pipe <;> simp [hc]

theorem mode_readsBlank : p.mode.ReadsBlank segs ↔ segs = [] ∧ p.prevCommand = none ∨ p.ReadsBlank segs := by
  rw [Mode.ReadsBlank, mode_fresh, Parser.ReadsBlank]
  cases segs with
  | nil => simp
  | cons seg segs => simp [Parser.Blank]

/-- After a command that stands for the segment. -/
theorem mode_of_denotes {seg : Segment} {fed : Bool} {c : Command} (h : seg.Denotes fed c) :
    mode ⟨some c⟩ = if seg.piped then .fed else .plain := by
  simp only [mode, ← h.toPipe]

theorem prepend_status (chain : List Command) (r : Result) : (r.prepend chain).status = r.status := by
  unfold Result.prepend
  cases hs : r.status <;> simp [hs]

theorem parser_prepend (chain : List Command) (r : Result) : (r.prepend chain).parser = r.parser := by
  unfold Result.prepend
  cases hs : r.status <;> rfl

/-- What the segments of a line give is what the automaton says, when they are not blank. -/
theorem parse_scan (hblank : ¬ p.ReadsBlank segs) :
    Option.Rel (fun result out => result.status = out.1 ∧ result.parser.mode = out.2) (parse p segs) (p.mode.scan segs) := by
  induction segs generalizing p with
  | nil => exact .some ⟨rfl, rfl⟩
  | cons seg segs ih =>
    rw [parse, if_neg fun hb => hblank (readsBlank_cons.2 hb), Mode.scan, decide_mode_fed]
    cases hcommand : seg.command p.fed with
    | none =>
      have hnot : ¬ seg.Valid p.fed := fun hvalid => by
        rw [← Segment.command_isSome, hcommand] at hvalid
        cases hvalid
      rw [if_pos hnot]
      exact .some ⟨rfl, rfl⟩
    | some c =>
      have hdenotes := Segment.denotes_of_command hcommand
      rw [if_neg (not_not.2 (Segment.command_isSome.1 (by rw [hcommand]; rfl)))]
      dsimp only
      by_cases hend : seg.ending = .word
      · rw [if_pos hend, if_pos hend]
        exact .none
      · rw [if_neg hend, if_neg hend, ← mode_of_denotes hdenotes]
        -- the command in front changes neither the answer nor the parser
        have hrest := ih (not_readsBlank c segs)
        revert hrest
        generalize parse ⟨some c⟩ segs = r
        generalize (mode ⟨some c⟩).scan segs = out
        rintro (⟨hstatus, hmode⟩ | _)
        · exact .some ⟨(prepend_status ..).trans hstatus, by rw [parser_prepend]; exact hmode⟩
        · exact .none

theorem parse_read (p : Parser) (segs : List Segment) :
    Option.Rel (fun result reading => reading.Describes result) (parse p segs) (p.mode.read segs) := by
  rw [Mode.read]
  by_cases hblank : p.mode.ReadsBlank segs
  · have hparse : parse p segs = some ⟨.success, [], p⟩ := by
      rcases mode_readsBlank.1 hblank with ⟨rfl, -⟩ | hreads
      · rfl
      · exact parse_of_readsBlank hreads
    rw [if_pos hblank, hparse]
    exact .some ⟨rfl, .nil, rfl⟩
  · have hnot : ¬ p.ReadsBlank segs := fun hreads => hblank (mode_readsBlank.2 (.inr hreads))
    rw [if_neg hblank, decide_mode_fed]
    have hscan := parse_scan hnot
    revert hscan
    cases hparse : parse p segs with
    | none =>
      generalize p.mode.scan segs = out
      rintro (_ | _)
      exact .none
    | some r =>
      generalize p.mode.scan segs = out
      rintro (⟨hstatus, hmode⟩ | _)
      refine .some ⟨hstatus, ?_, hmode⟩
      dsimp only
      rw [← hstatus]
      cases hs : r.status with
      | success =>
        rw [if_pos rfl]
        obtain ⟨chain, q, hchain, hall, -⟩ := parse_of_accepted ((accepted_of_parse hparse hs).resolve_left hnot) hnot
        cases hparse.symm.trans hchain
        exact hall
      | fail =>
        rw [if_neg (by simp), command_of_fail hparse hs]
        exact .nil

/-- With passes enough for each line, the lines of a session are read as the automaton says. -/
theorem parseLines_readLines {fuel : Nat} : ∀ {lines : List Word} {p : Parser}, (∀ buffer ∈ lines, (lineTokens buffer).length < fuel) →
    Option.Rel (fun results readings => List.Forall₂ (fun reading result => reading.Describes result) readings results)
      (p.parseLines fuel lines) (p.mode.readLines lines)
  | [], _, _ => .some .nil
  | buffer :: lines, p, hfuel => by
    obtain ⟨hbuffer, hlines⟩ := List.forall_mem_cons.1 hfuel
    rw [parseLines, Mode.readLines, parseLine_eq buffer hbuffer]
    have hread := parse_read p (lineSegments buffer)
    revert hread
    generalize parse p (lineSegments buffer) = r
    generalize p.mode.read (lineSegments buffer) = o
    rintro (h | _)
    · rename_i result reading
      have hrest := parseLines_readLines (p := result.parser) hlines
      dsimp only
      rw [h.mode] at hrest
      revert hrest
      generalize result.parser.parseLines fuel lines = rs
      generalize reading.mode.readLines lines = os
      rintro (hrest | _)
      · exact .some (.cons h hrest)
      · exact .none
    · exact .none

/-- What is returned after some passes is returned with passes enough. -/
theorem parseLines_enough {fuel enough : Nat} : ∀ {lines : List Word} {p : Parser} {results : List Result},
    (∀ buffer ∈ lines, (lineTokens buffer).length < enough) → p.parseLines fuel lines = some results →
      p.parseLines enough lines = some results
  | [], _, _, _, h => h
  | buffer :: lines, p, results, henough, h => by
    obtain ⟨hbuffer, hlines⟩ := List.forall_mem_cons.1 henough
    rw [parseLines] at h ⊢
    cases hline : p.parseLine fuel buffer with
    | none =>
      rw [hline] at h
      cases h
    | some result =>
      rw [hline] at h
      obtain ⟨rest, hrest, rfl⟩ := Option.map_eq_some_iff.1 h
      rw [parseLine_eq buffer hbuffer, (parseLine_iff buffer result).1 ⟨fuel, hline⟩]
      dsimp only
      rw [parseLines_enough hlines hrest]
      rfl

/-- A parser that is given any lines, accepted or not: it returns from all of them if and only if the automaton
reads them all, and then its answers, the commands of its chains and what it remembers after each line are as
the automaton says. -/
theorem parses_as_automaton (p : Parser) (lines : List Word) :
    ((∃ fuel results, p.parseLines fuel lines = some results) ↔ (p.mode.readLines lines).isSome) ∧
      ∀ fuel results, p.parseLines fuel lines = some results →
        ∃ readings, p.mode.readLines lines = some readings ∧
          List.Forall₂ (fun reading result => reading.Describes result) readings results := by
  have henough : ∀ buffer ∈ lines, (lineTokens buffer).length < (lines.map lineTokens).flatten.length + 1 := fun buffer hb =>
    Nat.lt_succ_of_le (List.sublist_flatten_of_mem (List.mem_map_of_mem hb)).length_le
  have hreads := parseLines_readLines (p := p) henough
  have hdescribed : ∀ fuel results, p.parseLines fuel lines = some results →
      ∃ readings, p.mode.readLines lines = some readings ∧
        List.Forall₂ (fun reading result => reading.Describes result) readings results := by
    intro fuel results h
    rw [parseLines_enough henough h] at hreads
    generalize p.mode.readLines lines = readings at hreads
    cases hreads with
    | some hall => exact ⟨_, rfl, hall⟩
  refine ⟨⟨?_, fun hsome => ?_⟩, hdescribed⟩
  · rintro ⟨fuel, results, h⟩
    obtain ⟨readings, hreadings, -⟩ := hdescribed fuel results h
    rw [hreadings]
    rfl
  · obtain ⟨readings, hreadings⟩ := Option.isSome_iff_exists.1 hsome
    rw [hreadings] at hreads
    generalize hlines : p.parseLines ((lines.map lineTokens).flatten.length + 1) lines = results at hreads
    cases hreads with
    | some hall => exact ⟨_, _, hlines⟩

/-- A line rejected behind a pipe leaves the parser in the middle of it, so that the next line is rejected too. -/
example : (Mode.readLines .fresh ["; ls".toList, "ls | | wc".toList, "> f".toList]).map (List.map Reading.status) =
    some [.success, .fail, .fail] := by decide

end Parser

end UnixSysProg.Osh
