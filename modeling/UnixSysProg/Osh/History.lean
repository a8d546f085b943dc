/-
What a line is parsed to may depend on the lines before it. The last command appended to a chain stays in the
parser: whether it writes into a pipe decides how the first command of the next line starts, and whether there
is one decides what a line is that begins with an operator.
-/
import UnixSysProg.Osh.Simulation
import UnixSysProg.Osh.Grammar

namespace UnixSysProg.Osh

variable {p q : Parser} {segs : List Segment} {r : Result}

/-! ## Outcomes -/

theorem command_of_fail (h : parse p segs = some r) (hfail : r.status = .fail) : r.command = [] := by
  induction segs generalizing p r with
  | nil =>
    cases h
    rfl
  | cons seg segs ih =>
    rw [parse] at h
    split at h
    · cases h
      rfl
    · split at h
      · cases h
        rfl
      · split at h
        · cases h
        · obtain ⟨rest, hrest, rfl⟩ := Option.map_eq_some_iff.1 h
          unfold Result.prepend at hfail ⊢
          cases hs : rest.status with
          | success =>
            rw [hs] at hfail
            cases hfail
          | fail => exact ih hrest hs

/-- A line that is not accepted is rejected with nothing. -/
theorem rejected_of_parse (h : parse p segs = some r) (hblank : ¬ p.ReadsBlank segs) (hnot : ¬ Accepted p.fed segs) :
    r.status = .fail ∧ r.command = [] := by
  have hfail : r.status = .fail := by
    cases hstatus : r.status with
    | fail => rfl
    | success => exact absurd (accepted_of_parse h hstatus) (not_or.2 ⟨hblank, hnot⟩)
  exact ⟨hfail, command_of_fail h hfail⟩

/-- An accepted line has commands, and the first of them reads from a pipe if the parser is in the middle
of one. -/
theorem head_of_accepted (h : parse p segs = some r) (hblank : ¬ p.ReadsBlank segs) (haccepted : Accepted p.fed segs)
    (hne : segs ≠ []) : r.status = .success ∧ ∃ c ∈ r.command.head?, c.inputMode = .pipe ↔ p.fed = true := by
  obtain ⟨chain, p', hparse, hall, _⟩ := parse_of_accepted haccepted hblank
  cases h.symm.trans hparse
  cases hall with
  | nil => exact absurd rfl hne
  | cons hdenotes _ => exact ⟨rfl, _, rfl, hdenotes.fromPipe⟩

/-- Past the first segment nothing of the parser matters but whether it is in the middle of a pipe. -/
theorem parse_congr {r' : Result} (hfed : p.fed = q.fed) (hp : ¬ p.ReadsBlank segs) (hq : ¬ q.ReadsBlank segs)
    (h : parse p segs = some r) (h' : parse q segs = some r') : r.status = r'.status ∧ r.command = r'.command := by
  cases segs with
  | nil =>
    cases h
    cases h'
    exact ⟨rfl, rfl⟩
  | cons seg segs =>
    rw [parse, if_neg (fun hb => hp (readsBlank_cons.2 hb))] at h
    rw [parse, if_neg (fun hb => hq (readsBlank_cons.2 hb)), ← hfed] at h'
    cases hcommand : seg.command p.fed with
    | none =>
      rw [hcommand] at h h'
      cases h
      cases h'
      exact ⟨rfl, rfl⟩
    | some c =>
      rw [hcommand] at h h'
      cases h.symm.trans h'
      exact ⟨rfl, rfl⟩

namespace Parser

/-! ## Two parsers and a line -/

/-- On the two parsers the line is parsed to the same, should both return, and to a chain that does not begin
in the middle of a pipe. -/
def ParsesAlike (p q : Parser) (buffer : Word) : Prop :=
  ∀ fuel fuel' r r', p.parseLine fuel buffer = some r → q.parseLine fuel' buffer = some r' →
    r.status = r'.status ∧ r.command = r'.command ∧ (∀ c ∈ r.command.head?, c.inputMode ≠ .pipe) ∧
      ∀ c ∈ r'.command.head?, c.inputMode ≠ .pipe

/-- The segments of the line hang one of the parsers, or there are none; or they are blank for both parsers; or
for neither, and either neither is in the middle of a pipe or both reject them. -/
def Alike (p q : Parser) (segs : List Segment) : Prop :=
  (¬ p.ReadsBlank segs ∧ Stuck p.fed segs) ∨ (¬ q.ReadsBlank segs ∧ Stuck q.fed segs) ∨ segs = [] ∨
    (p.ReadsBlank segs ∧ q.ReadsBlank segs) ∨
    (¬ p.ReadsBlank segs ∧ ¬ q.ReadsBlank segs ∧
      ((p.fed = false ∧ q.fed = false) ∨ (¬ Accepted p.fed segs ∧ ¬ Accepted q.fed segs)))

theorem parsesAlike_iff_parse {buffer : Word} : p.ParsesAlike q buffer ↔
    ∀ r r', parse p (lineSegments buffer) = some r → parse q (lineSegments buffer) = some r' →
      r.status = r'.status ∧ r.command = r'.command ∧ (∀ c ∈ r.command.head?, c.inputMode ≠ .pipe) ∧
        ∀ c ∈ r'.command.head?, c.inputMode ≠ .pipe := by
  constructor
  · intro h r r' hr hr'
    obtain ⟨fuel, hfuel⟩ := (parseLine_iff buffer r).2 hr
    obtain ⟨fuel', hfuel'⟩ := (parseLine_iff buffer r').2 hr'
    exact h fuel fuel' r r' hfuel hfuel'
  · intro h fuel fuel' r r' hfuel hfuel'
    exact h r r' ((parseLine_iff buffer r).1 ⟨fuel, hfuel⟩) ((parseLine_iff buffer r').1 ⟨fuel', hfuel'⟩)

/-- A line that is blank for one parser only is not parsed to the same on both. -/
theorem not_alike_of_blank {r' : Result} (hne : segs ≠ []) (hp : p.ReadsBlank segs) (hq : ¬ q.ReadsBlank segs)
    (h : parse p segs = some r) (h' : parse q segs = some r') : ¬ (r.status = r'.status ∧ r.command = r'.command) := by
  rintro ⟨hstatus, hcommand⟩
  cases h.symm.trans (parse_of_readsBlank hp)
  by_cases haccepted : Accepted q.fed segs
  · obtain ⟨_, c, hc, _⟩ := head_of_accepted h' hq haccepted hne
    rw [← hcommand] at hc
    cases hc
  · rw [(rejected_of_parse h' hq haccepted).1] at hstatus
    cases hstatus

theorem alike_of_parse {r' : Result} (h : parse p segs = some r) (h' : parse q segs = some r') (hne : segs ≠ [])
    (hsame : r.status = r'.status ∧ r.command = r'.command) (hhead : ∀ c ∈ r.command.head?, c.inputMode ≠ .pipe)
    (hhead' : ∀ c ∈ r'.command.head?, c.inputMode ≠ .pipe) :
    (p.ReadsBlank segs ∧ q.ReadsBlank segs) ∨ (¬ p.ReadsBlank segs ∧ ¬ q.ReadsBlank segs ∧
      ((p.fed = false ∧ q.fed = false) ∨ (¬ Accepted p.fed segs ∧ ¬ Accepted q.fed segs))) := by
  by_cases hp : p.ReadsBlank segs <;> by_cases hq : q.ReadsBlank segs
  · exact .inl ⟨hp, hq⟩
  · exact absurd hsame (not_alike_of_blank hne hp hq h h')
  · exact absurd ⟨hsame.1.symm, hsame.2.symm⟩ (not_alike_of_blank hne hq hp h' h)
  · refine .inr ⟨hp, hq, ?_⟩
    -- an accepted line shows at its first command whether the parser is in the middle of a pipe
    have hunfed : ∀ {p : Parser} {r : Result}, parse p segs = some r → ¬ p.ReadsBlank segs → Accepted p.fed segs →
        (∀ c ∈ r.command.head?, c.inputMode ≠ .pipe) → r.status = .success ∧ p.fed = false := by
      intro p r h hp haccepted hhead
      obtain ⟨hsuccess, c, hc, hpipe⟩ := head_of_accepted h hp haccepted hne
      exact ⟨hsuccess, Bool.eq_false_iff.2 fun hfed => hhead c hc (hpipe.2 hfed)⟩
    by_cases hacc : Accepted p.fed segs <;> by_cases hacc' : Accepted q.fed segs
    · exact .inl ⟨(hunfed h hp hacc hhead).2, (hunfed h' hq hacc' hhead').2⟩
    · have := hsame.1
      rw [(hunfed h hp hacc hhead).1, (rejected_of_parse h' hq hacc').1] at this
      cases this
    · have := hsame.1
      rw [(hunfed h' hq hacc' hhead').1, (rejected_of_parse h hp hacc).1] at this
      cases this
    · exact .inr ⟨hacc, hacc'⟩

/-- A chain that is not parsed in the middle of a pipe does not begin with a reader. -/
theorem head_not_piped (h : parse p segs = some r) (hne : segs ≠ []) (hblank : ¬ p.ReadsBlank segs) (hfed : p.fed = false) :
    ∀ c ∈ r.command.head?, c.inputMode ≠ .pipe := by
  intro c hc hpipe
  by_cases haccepted : Accepted p.fed segs
  · obtain ⟨_, d, hd, hiff⟩ := head_of_accepted h hblank haccepted hne
    cases hc.symm.trans hd
    rw [hiff.1 hpipe] at hfed
    cases hfed
  · rw [(rejected_of_parse h hblank haccepted).2] at hc
    cases hc

/-- What was parsed before does not show exactly on the lines that are alike for the two parsers. -/
theorem parsesAlike_iff (p q : Parser) (buffer : Word) : p.ParsesAlike q buffer ↔ Alike p q (lineSegments buffer) := by
  rw [parsesAlike_iff_parse]
  generalize lineSegments buffer = segs
  constructor
  · intro h
    by_cases hp : ¬ p.ReadsBlank segs ∧ Stuck p.fed segs
    · exact .inl hp
    by_cases hq : ¬ q.ReadsBlank segs ∧ Stuck q.fed segs
    · exact .inr (.inl hq)
    by_cases hne : segs = []
    · exact .inr (.inr (.inl hne))
    obtain ⟨r, hr⟩ := Option.ne_none_iff_exists'.1 fun hnone => hp (parse_eq_none.1 hnone)
    obtain ⟨r', hr'⟩ := Option.ne_none_iff_exists'.1 fun hnone => hq (parse_eq_none.1 hnone)
    obtain ⟨hstatus, hcommand, hhead, hhead'⟩ := h r r' hr hr'
    exact .inr (.inr (.inr (alike_of_parse hr hr' hne ⟨hstatus, hcommand⟩ hhead hhead')))
  · intro halike r r' hr hr'
    rcases halike with hp | hq | rfl | ⟨hp, hq⟩ | ⟨hp, hq, ⟨hfed, hfed'⟩ | ⟨hacc, hacc'⟩⟩
    · rw [parse_eq_none.2 hp] at hr
      cases hr
    · rw [parse_eq_none.2 hq] at hr'
      cases hr'
    · cases hr
      cases hr'
      simp
    · cases hr.symm.trans (parse_of_readsBlank hp)
      cases hr'.symm.trans (parse_of_readsBlank hq)
      simp
    · by_cases hne : segs = []
      · subst hne
        cases hr
        cases hr'
        simp
      · obtain ⟨hstatus, hcommand⟩ := parse_congr (hfed.trans hfed'.symm) hp hq hr hr'
        exact ⟨hstatus, hcommand, head_not_piped hr hne hp hfed, head_not_piped hr' hne hq hfed'⟩
    · obtain ⟨hstatus, hcommand⟩ := rejected_of_parse hr hp hacc
      obtain ⟨hstatus', hcommand'⟩ := rejected_of_parse hr' hq hacc'
      simp [hstatus, hstatus', hcommand, hcommand']

/-- `cat` on its own, and after a line that ends in a pipe: the second `cat` reads from a pipe. -/
theorem parses_not_alike : ∃ first last alone c d,
    ({} : Parser).parseLines 10 ["ls |".toList, "cat".toList] = some [first, last] ∧
    ({} : Parser).parseLines 10 ["cat".toList] = some [alone] ∧
    last.command = [c] ∧ alone.command = [d] ∧ c.inputMode = .pipe ∧ d.inputMode = .stdin ∧
    ¬ first.parser.ParsesAlike {} "cat".toList := by
  refine ⟨_, _, _, _, _, rfl, rfl, rfl, rfl, rfl, rfl, fun halike => ?_⟩
  exact (halike 10 10 _ _ rfl rfl).2.2.1 _ rfl rfl

end Parser

end UnixSysProg.Osh
