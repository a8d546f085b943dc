/-
Parsing a rendered line gives back its commands. A line is written as its tokens with one blank between
each two of them, and a parser that has read such lines reads the next one as if it were the first.
-/
import UnixSysProg.Osh.Simulation
import UnixSysProg.Osh.Grammar

namespace UnixSysProg.Osh

open UnixSysProg.Lib

/-! ## Lines and how they are written -/

/-- A word or the name of a file, as it can stand in a line. -/
structure Plain (word : Word) : Prop where
  ne_nil : word ≠ []
  noSpace : ∀ c ∈ word, isspace c = false
  noSymbol : isTokenSymbol word = false

instance : DecidablePred Plain := fun word =>
  decidable_of_iff ((!word.isEmpty && word.all (fun c => !isspace c) && !isTokenSymbol word) = true)
    ⟨fun h => by simp at h; exact ⟨h.1.1, h.1.2, h.2⟩, fun h => by simp [h.ne_nil, h.noSymbol]; exact h.noSpace⟩

def Ending.tokens : Ending → List Word
  | connector c => [c.symbol]
  | _ => []

namespace Segment

/-- A command with its words and the files of its redirections. -/
structure Written (seg : Segment) : Prop where
  words : seg.words ≠ []
  plain : ∀ word ∈ seg.words, Plain word
  files : ∀ x ∈ seg.redirections, Plain x.2

instance : DecidablePred Written := fun seg =>
  decidable_of_iff ((!seg.words.isEmpty && seg.words.all (fun word => decide (Plain word)) &&
      seg.redirections.all fun x => decide (Plain x.2)) = true)
    ⟨fun h => by simp at h; exact ⟨h.1.1, h.1.2, fun x hx => h.2 x.1 x.2 hx⟩,
      fun h => by simp [h.words]; exact ⟨h.plain, fun r f hx => h.files (r, f) hx⟩⟩

def tokens (seg : Segment) : List Word :=
  seg.words ++ (seg.redirections.flatMap (fun x => [x.1.symbol, x.2]) ++ seg.ending.tokens)

end Segment

/-- Every command but the last one is followed by a connector. -/
def Joined : List Segment → Prop
  | [] => False
  | [seg] => seg.ending = .endOfLine
  | seg :: segs => (∃ connector, seg.ending = .connector connector) ∧ Joined segs

/-- A line of one to fifty commands, with the redirections that their pipes leave to them. -/
structure Line where
  segments : List Segment
  joined : Joined segments
  length_le : segments.length ≤ 50
  written : ∀ seg ∈ segments, seg.Written
  accepted : Accepted false segments

def Line.tokens (l : Line) : List Word := l.segments.flatMap Segment.tokens

/-- The line as it is typed in. -/
def Line.render (l : Line) : Word := [' '].intercalate l.tokens

/-! ## Tokens -/

theorem trim_of_noSpace {word : Word} (h : ∀ c ∈ word, isspace c = false) : trim word = word := by
  have hr : rtrim word = word := List.rdropWhile_eq_self_iff.2 fun hne => by
    rw [h _ (List.getLast_mem hne)]
    decide
  have hl : ltrim word = word := List.dropWhile_eq_self_iff.2 fun hlen => by
    rw [h _ (List.getElem_mem hlen)]
    decide
  rw [trim, hr, hl]

theorem Plain.trim_eq {word : Word} (h : Plain word) : trim word = word := trim_of_noSpace h.noSpace

theorem Redirection.trim_symbol (r : Redirection) : trim r.symbol = r.symbol := by cases r <;> rfl

theorem Connector.trim_symbol (c : Connector) : trim c.symbol = c.symbol := by cases c <;> rfl

/-! ## The segments of a rendered line -/

variable {seg : Segment} {segs : List Segment} {rest : List Word}

/-- The tokens end here, or with an operator that is no redirection. -/
def EndsRedirections (rest : List Word) : Prop := ∀ token ∈ rest.head?, ∃ c : Connector, token = c.symbol

theorem splitRedirections_tokens (rs : List (Redirection × Word)) (hfiles : ∀ x ∈ rs, Plain x.2)
    (hrest : EndsRedirections rest) :
    splitRedirections (rs.flatMap (fun x => [x.1.symbol, x.2]) ++ rest) = (rs, rest) := by
  induction rs with
  | nil =>
    have hnone : ∀ c : Connector, Redirection.ofToken (trim c.symbol) = none := fun c => by cases c <;> rfl
    match rest, hrest with
    | [], _ => rfl
    | [token], hrest =>
      obtain ⟨c, rfl⟩ := hrest token rfl
      simp [splitRedirections, hnone]
    | token :: file :: rest, hrest =>
      obtain ⟨c, rfl⟩ := hrest token rfl
      simp [splitRedirections, hnone]
  | cons x rs ih =>
    obtain ⟨hx, hrs⟩ := List.forall_mem_cons.1 hfiles
    have hsymbol : Redirection.ofToken (trim x.1.symbol) = some x.1 := by
      rw [Redirection.trim_symbol, Redirection.ofToken_symbol]
    rw [List.flatMap_cons, List.append_assoc]
    simp only [List.cons_append, List.nil_append, splitRedirections, hsymbol, ih hrs, hx.trim_eq]

theorem splitEnding_tokens {ending : Ending} (hend : ending ≠ .word) (hrest : ending = .endOfLine → rest = []) :
    splitEnding (ending.tokens ++ rest) = (ending, rest) := by
  cases ending with
  | endOfLine => rw [hrest rfl]; rfl
  | connector c => simp [Ending.tokens, splitEnding, Connector.trim_symbol]
  | word => exact absurd rfl hend

theorem endsRedirections_tokens {ending : Ending} (hend : ending ≠ .word) (hrest : ending = .endOfLine → rest = []) :
    EndsRedirections (ending.tokens ++ rest) := by
  cases ending with
  | endOfLine => rw [hrest rfl]; simp [EndsRedirections, Ending.tokens]
  | connector c => simp [EndsRedirections, Ending.tokens]
  | word => exact absurd rfl hend

/-- The words of a command end where its redirections or its ending begin. -/
theorem takeWhile_isWord_tokens (rs : List (Redirection × Word)) (hrest : EndsRedirections rest) :
    (rs.flatMap (fun x => [x.1.symbol, x.2]) ++ rest).takeWhile isWord = [] := by
  have hredirection : ∀ r : Redirection, isWord r.symbol = false := fun r => by cases r <;> rfl
  have hconnector : ∀ c : Connector, isWord c.symbol = false := fun c => by cases c <;> rfl
  cases rs with
  | nil =>
    cases rest with
    | nil => rfl
    | cons token rest =>
      obtain ⟨c, rfl⟩ := hrest token rfl
      simp [hconnector]
  | cons x rs => simp [hredirection]

theorem splitSegment_tokens (rest : List Word) (h : seg.Written) (hend : seg.ending ≠ .word)
    (hrest : seg.ending = .endOfLine → rest = []) : splitSegment (seg.tokens ++ rest) = (seg, rest) := by
  have hends := endsRedirections_tokens hend hrest
  have hwords : ∀ word ∈ seg.words, isWord word = true := fun word hword => by
    simp [isWord, (h.plain word hword).trim_eq, (h.plain word hword).noSymbol]
  have hmap : seg.words.map trim = seg.words := by
    simpa using List.map_congr_left fun word hword => (h.plain word hword).trim_eq
  have htake := takeWhile_isWord_tokens seg.redirections hends
  have hdrop := dropWhile_isWord htake
  have htokens : seg.tokens ++ rest =
      seg.words ++ (seg.redirections.flatMap (fun x => [x.1.symbol, x.2]) ++ (seg.ending.tokens ++ rest)) := by
    simp [Segment.tokens]
  rw [htokens, splitSegment, List.takeWhile_append_of_pos hwords, List.dropWhile_append_of_pos hwords, htake, hdrop,
    splitRedirections_tokens _ h.files hends]
  dsimp only
  rw [splitEnding_tokens hend hrest, List.append_nil, hmap]

theorem Segment.Written.tokens_ne_nil (h : seg.Written) : seg.tokens ≠ [] := by
  simp [Segment.tokens, h.words]

theorem segments_tokens {n : Nat} (hlen : segs.length ≤ n) (hwritten : ∀ seg ∈ segs, seg.Written) (hjoined : Joined segs) :
    segments n (segs.flatMap Segment.tokens) = segs := by
  induction segs generalizing n with
  | nil => exact hjoined.elim
  | cons seg segs ih =>
    obtain ⟨hseg, hsegs⟩ := List.forall_mem_cons.1 hwritten
    have hend : seg.ending ≠ .word ∧ (seg.ending = .endOfLine → segs = []) ∧ (segs ≠ [] → Joined segs) := by
      cases segs with
      | nil => rw [show seg.ending = .endOfLine from hjoined]; simp
      | cons seg' segs =>
        obtain ⟨⟨connector, hconnector⟩, hrest⟩ := hjoined
        rw [hconnector]
        simp [hrest]
    cases n with
    | zero => cases hlen
    | succ n =>
      have hsplit := splitSegment_tokens (segs.flatMap Segment.tokens) hseg hend.1
        fun he => by rw [hend.2.1 he]; rfl
      have hne : seg.tokens ++ segs.flatMap Segment.tokens ≠ [] := fun h =>
        hseg.tokens_ne_nil (List.append_eq_nil_iff.1 h).1
      rw [List.flatMap_cons, segments_succ n hne, hsplit]
      dsimp only
      rw [if_neg hend.1]
      cases segs with
      | nil => cases n <;> rfl
      | cons seg' segs => rw [ih (Nat.le_of_succ_le_succ hlen) hsegs (hend.2.2 (by simp))]

/-- A token stands between blanks as it is. -/
theorem Segment.Written.tokens_noBlank (h : seg.Written) :
    ∀ token ∈ seg.tokens, token ≠ [] ∧ ∀ c ∈ token, decide (c ∈ [' ']) = false := by
  have hplain : ∀ word, Plain word → word ≠ [] ∧ ∀ c ∈ word, decide (c ∈ [' ']) = false := by
    intro word hword
    refine ⟨hword.ne_nil, fun c hc => ?_⟩
    have hspace := hword.noSpace c hc
    by_contra hblank
    rw [show c = ' ' by simpa using hblank] at hspace
    cases hspace
  intro token htoken
  rcases List.mem_append.1 htoken with hword | hoperators
  · exact hplain token (h.plain token hword)
  rcases List.mem_append.1 hoperators with hredirection | hending
  · obtain ⟨x, hx, hmem⟩ := List.mem_flatMap.1 hredirection
    rcases List.mem_cons.1 hmem with rfl | hfile
    · cases x.1 <;> simp [Redirection.symbol, redirStdin, redirStdout, appendStdout]
    · rw [List.mem_singleton.1 hfile]
      exact hplain x.2 (h.files x hx)
  · cases hend : seg.ending with
    | connector c =>
      rw [hend] at hending
      rw [List.mem_singleton.1 hending]
      cases c <;> simp [Connector.symbol, redirPipe, execAny, execOnsuccess, execOnfailure]
    | endOfLine | word =>
      rw [hend] at hending
      cases hending

namespace Line

theorem lineTokens_render (l : Line) : lineTokens l.render = l.tokens := by
  refine runs_intercalate (p := fun c => decide (c ∈ [' '])) (by decide) fun token htoken => ?_
  obtain ⟨seg, hseg, hmem⟩ := List.mem_flatMap.1 htoken
  exact (l.written seg hseg).tokens_noBlank token hmem

theorem lineSegments_render (l : Line) : lineSegments l.render = l.segments := by
  rw [lineSegments, lineTokens_render]
  exact segments_tokens l.length_le l.written l.joined

theorem not_readsBlank (l : Line) (p : Parser) : ¬ p.ReadsBlank l.segments := by
  rintro ⟨seg, hseg, _, hwords⟩
  exact (l.written seg (List.mem_of_mem_head? hseg)).words hwords

end Line

theorem Joined.last_not_piped (h : Joined segs) : (segs.getLast?.map Segment.piped).getD false = false := by
  induction segs with
  | nil => rfl
  | cons seg segs ih =>
    cases segs with
    | nil => simp [Segment.piped, show seg.ending = .endOfLine from h]
    | cons seg' segs => simpa [List.getLast?_cons_cons] using ih h.2

/-! ## Parsing -/

/-- The chain of a line: its commands in order, with the connectors that were written and with the words as
C strings, which are the words that were written when there is no NUL in them. -/
structure Line.ParsedTo (l : Line) (chain : List Command) : Prop where
  commands : DenotesAll false l.segments chain
  argv : List.Forall₂ (fun seg c => c.argv = some (seg.words.map strncpy)) l.segments chain
  words : List.Forall₂ (fun seg c => (∀ word ∈ seg.words, '\x00' ∉ word) → c.argv = some seg.words) l.segments chain
  connectors : List.Forall₂ (fun seg c => c.runNextCommand = seg.ending.runNextCommand) l.segments chain

theorem DenotesAll.forall₂ {R : Segment → Command → Prop} {fed : Bool} {chain : List Command}
    (h : DenotesAll fed segs chain) (hR : ∀ seg ∈ segs, ∀ fed c, seg.Denotes fed c → R seg c) :
    List.Forall₂ R segs chain := by
  induction h with
  | nil => exact .nil
  | cons hdenotes _ ih =>
    obtain ⟨hseg, hsegs⟩ := List.forall_mem_cons.1 hR
    exact .cons (hseg _ _ hdenotes) (ih hsegs)

theorem strncpy_words {words : List Word} (h : ∀ word ∈ words, '\x00' ∉ word) : words.map strncpy = words := by
  refine (List.map_congr_left fun word hword => ?_).trans (List.map_id _)
  refine List.takeWhile_eq_self_iff.2 fun c hc => ?_
  simpa using fun hnul : c = '\x00' => h word hword (hnul ▸ hc)

theorem Line.parsedTo (l : Line) {chain : List Command} (h : DenotesAll false l.segments chain) : l.ParsedTo chain := by
  refine ⟨h, h.forall₂ fun seg hseg fed c hc => ?_, h.forall₂ fun seg hseg fed c hc => ?_,
    h.forall₂ fun seg hseg fed c hc => ?_⟩
  · rw [hc.argv, if_neg (l.written seg hseg).words]
  · intro hnul
    rw [hc.argv, if_neg (l.written seg hseg).words, strncpy_words hnul]
  · exact hc.runNextCommand fun x hx => ((l.written seg hseg).files x hx).noSymbol

namespace Parser

variable {p : Parser} {fuel : Nat}

theorem parseLine_render (l : Line) (hfed : p.fed = false) (hfuel : l.tokens.length < fuel) :
    ∃ result, p.parseLine fuel l.render = some result ∧ result.status = .success ∧ l.ParsedTo result.command ∧
      result.parser.fed = false := by
  have haccepted := l.accepted
  rw [← hfed] at haccepted
  obtain ⟨chain, q, hparse, hall, hq⟩ := parse_of_accepted haccepted (l.not_readsBlank p)
  rw [hfed] at hall hq
  refine ⟨⟨.success, chain, q⟩, ?_, rfl, l.parsedTo hall, hq.trans l.joined.last_not_piped⟩
  rw [parseLine_eq _ (by rwa [l.lineTokens_render]), l.lineSegments_render, hparse]

theorem parseLines_render (lines : List Line) (hfed : p.fed = false) (hfuel : ∀ l ∈ lines, l.tokens.length < fuel) :
    ∃ results, p.parseLines fuel (lines.map Line.render) = some results ∧
      List.Forall₂ (fun (l : Line) (result : Result) => result.status = .success ∧ l.ParsedTo result.command)
        lines results := by
  induction lines generalizing p with
  | nil => exact ⟨[], rfl, .nil⟩
  | cons l lines ih =>
    obtain ⟨hl, hlines⟩ := List.forall_mem_cons.1 hfuel
    obtain ⟨result, hresult, hstatus, hparsed, hnext⟩ := parseLine_render l hfed hl
    obtain ⟨results, hresults, hall⟩ := ih hnext hlines
    exact ⟨result :: results, by simp [parseLines, hresult, hresults], .cons ⟨hstatus, hparsed⟩ hall⟩

/-- Rendered lines, fed one after another to one parser, are parsed to their commands. -/
theorem parse_render (lines : List Line) : ∃ fuel results,
    ({} : Parser).parseLines fuel (lines.map Line.render) = some results ∧
      List.Forall₂ (fun (l : Line) (result : Result) => result.status = .success ∧ l.ParsedTo result.command) lines results :=
  ⟨(lines.map Line.tokens).flatten.length + 1, parseLines_render lines rfl fun _ hl =>
    Nat.lt_succ_of_le (List.sublist_flatten_of_mem (List.mem_map_of_mem hl)).length_le⟩

example : ∃ l : Line, l.render = "cat < f | wc -l >> g".toList :=
  ⟨{ segments := [⟨["cat".toList], [(.stdin, ['f'])], .connector .pipe⟩,
      ⟨["wc".toList, "-l".toList], [(.append, ['g'])], .endOfLine⟩]
     joined := ⟨⟨_, rfl⟩, rfl⟩
     length_le := by decide
     written := by decide
     accepted := ⟨⟨by decide, by decide, by decide⟩, by decide, ⟨by decide, by decide, by decide⟩, by decide, trivial⟩ },
    rfl⟩

/-- A word with a NUL in it is cut there. -/
theorem word_with_nul : Plain ['a', '\x00', 'b'] ∧ ∃ result c,
    ({} : Parser).parseLine 10 ['a', '\x00', 'b'] = some result ∧
      result.status = .success ∧ result.command = [c] ∧ c.argv = some [['a']] :=
  ⟨by decide, _, _, rfl, rfl, rfl, rfl⟩

end Parser

end UnixSysProg.Osh
