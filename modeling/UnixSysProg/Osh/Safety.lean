/-
Which accepted lines are safe to execute: those on which every command has words, all of them and all file
names are there and are no operators, and the last command does not write into a pipe. The parser checks
none of this, apart from the words of a command that is fed by a pipe.
-/
import UnixSysProg.Osh.Simulation
import UnixSysProg.Osh.Grammar

namespace UnixSysProg.Osh

variable {c : Command} {seg : Segment} {segs : List Segment} {chain : List Command} {fed : Bool} {p : Parser}

/-- A command that the executor can run: `argv` is there with a word, its words are not empty, and the
files that it redirects to have names that are no operators. -/
structure Command.Safe (c : Command) : Prop where
  argv : ∃ words, c.argv = some words ∧ words ≠ [] ∧ ∀ word ∈ words, word ≠ []
  input : c.inputMode = .file → c.inputFilename ≠ [] ∧ isTokenSymbol c.inputFilename = false
  output : c.outputMode = .fileNew ∨ c.outputMode = .append →
    c.outputFilename ≠ [] ∧ isTokenSymbol c.outputFilename = false

/-- A command writes into a pipe exactly when the next one is there and reads from it. -/
def PipesMatch : List Command → Prop
  | [] => True
  | c :: cs => (c.outputMode = .pipe ↔ ∃ next ∈ cs.head?, next.inputMode = .pipe) ∧ PipesMatch cs

structure ChainSafe (chain : List Command) : Prop where
  commands : ∀ c ∈ chain, c.Safe
  pipes : PipesMatch chain

/-- `isCommandExit` finds a word in the `argv` of a safe command. -/
theorem Command.Safe.getExecutable (h : c.Safe) : ∃ word, c.getExecutable = some word ∧ word ≠ [] := by
  obtain ⟨words, hargv, hne, hwords⟩ := h.argv
  obtain ⟨word, rest, rfl⟩ := List.exists_cons_of_ne_nil hne
  exact ⟨word, by rw [Command.getExecutable, hargv], hwords word List.mem_cons_self⟩

/-! ## What a line has to say -/

/-- The segment has words, none of them empty as a C string, and its redirections have files. -/
structure Segment.Clean (seg : Segment) : Prop where
  words : seg.words ≠ []
  strings : ∀ word ∈ seg.words, strncpy word ≠ []
  files : ∀ x ∈ seg.redirections, x.2 ≠ [] ∧ isTokenSymbol x.2 = false

/-- All segments are clean, and the last one does not end in a pipe. -/
def WellFormed (segs : List Segment) : Prop :=
  (∀ seg ∈ segs, seg.Clean) ∧ ∀ seg ∈ segs.getLast?, seg.piped = false

/-! ## Commands and segments -/

theorem Segment.Denotes.exists_input (h : seg.Denotes fed c) (hmode : c.inputMode = .file) :
    ∃ f, (Redirection.stdin, f) ∈ seg.redirections ∧ c.inputFilename = f := by
  have hfed : fed = false := by
    by_contra hfed
    have := h.fromPipe.2 (by simpa using hfed)
    rw [hmode] at this
    cases this
  by_contra hnone
  have := h.fromStdin hfed fun f hf => hnone ⟨f, hf, (h.fromFile f hf).2⟩
  rw [hmode] at this
  cases this

theorem Segment.Denotes.exists_output (h : seg.Denotes fed c) (hmode : c.outputMode = .fileNew ∨ c.outputMode = .append) :
    ∃ r f, r ≠ Redirection.stdin ∧ (r, f) ∈ seg.redirections ∧ c.outputFilename = f := by
  have hpiped : seg.piped = false := by
    by_contra hpiped
    have := h.toPipe.2 (by simpa using hpiped)
    rw [this] at hmode
    rcases hmode with hmode | hmode <;> cases hmode
  by_contra hnone
  have := h.toStdout hpiped fun r f hr hf => hnone ⟨r, f, hr, hf, (h.toFile r f hr hf).2⟩
  rw [this] at hmode
  rcases hmode with hmode | hmode <;> cases hmode

theorem Segment.Denotes.safe_iff (h : seg.Denotes fed c) : c.Safe ↔ seg.Clean := by
  constructor
  · intro hsafe
    obtain ⟨words, hargv, hne, hwords⟩ := hsafe.argv
    rw [h.argv] at hargv
    split_ifs at hargv with hnil
    cases hargv
    refine ⟨hnil, fun word hword => hwords _ (List.mem_map_of_mem hword), ?_⟩
    rintro ⟨r, f⟩ hx
    by_cases hr : r = .stdin
    · subst hr
      obtain ⟨hmode, hname⟩ := h.fromFile f hx
      rw [← hname]
      exact hsafe.input hmode
    · obtain ⟨hmode, hname⟩ := h.toFile r f hr hx
      rw [← hname]
      exact hsafe.output (hmode ▸ Redirection.outputMode_file hr)
  · intro hclean
    constructor
    · exact ⟨seg.words.map strncpy, by rw [h.argv, if_neg hclean.words], by simpa using hclean.words,
        by simpa using hclean.strings⟩
    · intro hmode
      obtain ⟨f, hf, hname⟩ := h.exists_input hmode
      rw [hname]
      exact hclean.files _ hf
    · intro hmode
      obtain ⟨r, f, _, hf, hname⟩ := h.exists_output hmode
      rw [hname]
      exact hclean.files _ hf

theorem DenotesAll.safe_iff (h : DenotesAll fed segs chain) : (∀ c ∈ chain, c.Safe) ↔ ∀ seg ∈ segs, seg.Clean := by
  induction h with
  | nil => simp
  | cons hdenotes _ ih => rw [List.forall_mem_cons, List.forall_mem_cons, hdenotes.safe_iff, ih]

/-- The pipes inside a line always match, and only the last command can write into none. -/
theorem DenotesAll.pipesMatch_iff (h : DenotesAll fed segs chain) :
    PipesMatch chain ↔ ∀ seg ∈ segs.getLast?, seg.piped = false := by
  induction h with
  | nil => simp [PipesMatch]
  | cons hdenotes hall ih =>
    rw [PipesMatch, ih, hdenotes.toPipe]
    cases hall with
    | nil => simp
    | cons hnext _ => simp [hnext.fromPipe]

theorem DenotesAll.chainSafe_iff (h : DenotesAll fed segs chain) : ChainSafe chain ↔ WellFormed segs := by
  constructor
  · intro hsafe
    exact ⟨h.safe_iff.1 hsafe.commands, h.pipesMatch_iff.1 hsafe.pipes⟩
  · intro hwell
    exact ⟨h.safe_iff.2 hwell.1, h.pipesMatch_iff.2 hwell.2⟩

namespace Parser

/-- Everything that is accepted of a line is safe exactly when the line is blank, not accepted, or well
formed. -/
theorem accepted_safe_iff (p : Parser) (buffer : Word) :
    (∀ fuel result, p.parseLine fuel buffer = some result → result.status = .success → ChainSafe result.command) ↔
      p.ReadsBlank (lineSegments buffer) ∨ ¬ Accepted p.fed (lineSegments buffer) ∨ WellFormed (lineSegments buffer) := by
  by_cases hblank : p.ReadsBlank (lineSegments buffer)
  · constructor
    · intro _
      exact .inl hblank
    · intro _ fuel result hparse _
      have := (parseLine_iff buffer result).1 ⟨fuel, hparse⟩
      rw [parse_of_readsBlank hblank] at this
      cases this
      exact ⟨by simp, trivial⟩
  · by_cases haccepted : Accepted p.fed (lineSegments buffer)
    · obtain ⟨chain, q, hparse, hall, _⟩ := parse_of_accepted haccepted hblank
      rw [← hall.chainSafe_iff]
      constructor
      · intro hsafe
        obtain ⟨fuel, hline⟩ := (parseLine_iff buffer _).2 hparse
        exact .inr (.inr (hsafe fuel _ hline rfl))
      · intro hsafe fuel result hline _
        have := (parseLine_iff buffer result).1 ⟨fuel, hline⟩
        rw [hparse] at this
        cases this
        exact (hsafe.resolve_left hblank).resolve_left (not_not.2 haccepted)
    · constructor
      · intro _
        exact .inr (.inl haccepted)
      · intro _ fuel result hline hstatus
        have := (parseLine_iff buffer result).1 ⟨fuel, hline⟩
        exact absurd (accepted_of_parse this hstatus) (not_or.2 ⟨hblank, haccepted⟩)

/-- A command without words is accepted on a second line, and a pipe at the end of any line. -/
theorem unsafe_accepted : ∃ first second c d, ({} : Parser).parseLines 10 ["ls".toList, "; ls |".toList] =
      some [first, second] ∧ second.status = .success ∧ second.command = [c, d] ∧
    c.argv = none ∧ d.outputMode = .pipe ∧ ¬ ChainSafe second.command := by
  refine ⟨_, _, _, _, rfl, rfl, rfl, rfl, rfl, fun hsafe => ?_⟩
  obtain ⟨words, hargv, _⟩ := (hsafe.commands _ List.mem_cons_self).argv
  cases hargv

end Parser

end UnixSysProg.Osh
