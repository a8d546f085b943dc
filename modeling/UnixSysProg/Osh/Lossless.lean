/-
Writing a chain back out. The tokens of a command are its words, its redirections and its connector, and those
of a chain give back the tokens of the line that it was read from, unless the parser has dropped some of them
or has taken one for something it is not.
-/
import UnixSysProg.Osh.Consumed

namespace UnixSysProg.Osh

/-! ## Commands as tokens -/

/-- `get_nextCommandString`. -/
def nextCommandString : RunNextCommandSymbol → Word
  | .redirStdout => redirStdout
  | .redirStdin => redirStdin
  | .appendStdout => appendStdout
  | .redirPipe => redirPipe
  | .execAny => execAny
  | .execOnsuccess => execOnsuccess
  | .execOnfailure => execOnfailure
  | .none => []

namespace Command

variable (c : Command)

/-- The redirections that a command has been given. -/
def redirections : List (Redirection × Word) :=
  (match c.inputMode with
    | .file => [(.stdin, c.inputFilename)]
    | _ => []) ++
  match c.outputMode with
    | .fileNew => [(.stdout, c.outputFilename)]
    | .append => [(.append, c.outputFilename)]
    | _ => []

/-- The token of the connector, if there is one. -/
def connectorTokens : List Word :=
  match c.runNextCommand with
  | .none => []
  | run => [nextCommandString run]

/-- The tokens are the words of the command, its redirections in any order, and its connector. -/
def Writes (tokens : List Word) : Prop :=
  ∃ rs, rs.Perm c.redirections ∧ tokens = c.argv.getD [] ++ (redirectionTokens rs ++ c.connectorTokens)

end Command

/-- The tokens are those of the commands of the chain, one after the other. -/
def WritesChain (chain : List Command) (tokens : List Word) : Prop :=
  ∃ parts, List.Forall₂ Command.Writes chain parts ∧ tokens = parts.flatten

variable {c c' : Command} {seg : Segment} {fed : Bool} {rs : List (Redirection × Word)}

/-! ## Connectors -/

theorem setRunNextCommand_eq_none (symbol : Word) :
    (c.setRunNextCommand symbol).runNextCommand = .none ↔ c.runNextCommand = .none ∧ isTokenSymbol symbol = false := by
  unfold Command.setRunNextCommand isTokenSymbol
  split_ifs <;> simp_all

theorem redirect_eq_none {x : Redirection × Word} (h : c.redirect x = some c') :
    c'.runNextCommand = .none ↔ c.runNextCommand = .none ∧ isTokenSymbol x.2 = false := by
  rw [← setRunNextCommand_eq_none]
  obtain ⟨r, file⟩ := x
  cases r <;> simp only [Command.redirect] at h <;> split_ifs at h <;> cases h <;> rfl

theorem foldlM_redirect_eq_none (h : rs.foldlM Command.redirect c = some c') :
    c'.runNextCommand = .none ↔ c.runNextCommand = .none ∧ ∀ x ∈ rs, isTokenSymbol x.2 = false := by
  induction rs generalizing c with
  | nil =>
    cases h
    simp
  | cons x rs ih =>
    obtain ⟨c₁, hx, hrest⟩ := Option.bind_eq_some_iff.1 h
    rw [ih hrest, redirect_eq_none hx, List.forall_mem_cons, and_assoc]

/-- A segment that ends in a connector has it in its command. -/
theorem Segment.connectorTokens_connector {connector : Connector} (h : seg.command fed = some c)
    (hend : seg.ending = .connector connector) : c.connectorTokens = [connector.symbol] := by
  unfold Segment.command at h
  split_ifs at h
  obtain ⟨c₁, _, hfinish⟩ := Option.bind_eq_some_iff.1 h
  rw [hend] at hfinish
  cases connector with
  | pipe =>
    simp only [Command.finish] at hfinish
    split_ifs at hfinish
    cases hfinish
    rfl
  | any | onSuccess | onFailure =>
    cases hfinish
    rfl

/-- At the end of the line a command has a connector only from a file that is an operator. -/
theorem Segment.connectorTokens_endOfLine (h : seg.command fed = some c) (hend : seg.ending = .endOfLine) :
    (c.connectorTokens = [] ↔ ∀ x ∈ seg.redirections, isTokenSymbol x.2 = false) ∧ c.connectorTokens.length ≤ 1 := by
  unfold Segment.command at h
  split_ifs at h
  obtain ⟨c₁, hfold, hfinish⟩ := Option.bind_eq_some_iff.1 h
  rw [hend] at hfinish
  cases hfinish
  have hnone := foldlM_redirect_eq_none hfold
  rw [and_iff_right (show (seg.start fed).runNextCommand = .none from rfl)] at hnone
  rw [← hnone]
  unfold Command.connectorTokens
  cases c₁.runNextCommand <;> simp

/-! ## Redirections -/

/-- A list with at most one member of a kind, cut down to that kind. -/
theorem filter_of_countP_le_one {α : Type*} {p : α → Bool} {l : List α} (h : l.countP p ≤ 1) :
    (l.filter p = [] ∧ ∀ a ∈ l, ¬ p a) ∨ ∃ a ∈ l, p a ∧ l.filter p = [a] := by
  rw [List.countP_eq_length_filter] at h
  rcases Nat.le_one_iff_eq_zero_or_eq_one.1 h with hzero | hone
  · have hnil := List.length_eq_zero_iff.1 hzero
    exact .inl ⟨hnil, List.filter_eq_nil_iff.1 hnil⟩
  · obtain ⟨a, ha⟩ := List.length_eq_one_iff.1 hone
    obtain ⟨hmem, hp⟩ := List.mem_filter.1 (ha ▸ List.mem_singleton_self a)
    exact .inr ⟨a, hmem, hp, ha⟩

/-- The redirections of the input are none or the one that the command has. -/
theorem Segment.Denotes.filter_stdin (h : seg.Denotes fed c) (hvalid : seg.Valid fed) :
    seg.redirections.filter (·.1 = .stdin) =
      match c.inputMode with
      | .file => [(.stdin, c.inputFilename)]
      | _ => [] := by
  rcases filter_of_countP_le_one ((Nat.le_add_right _ _).trans hvalid.inputs) with
    ⟨hfilter, hno⟩ | ⟨⟨r, f⟩, hmem, hr, hfilter⟩
  · have hnone : ∀ f, (Redirection.stdin, f) ∉ seg.redirections := fun f hf => hno _ hf rfl
    rw [hfilter]
    cases fed with
    | true => rw [h.fromPipe.2 rfl]
    | false => rw [h.fromStdin rfl hnone]
  · obtain rfl : r = .stdin := by simpa using hr
    obtain ⟨hmode, hname⟩ := h.fromFile f hmem
    rw [hfilter, hmode, hname]

theorem Segment.Denotes.filter_stdout (h : seg.Denotes fed c) (hvalid : seg.Valid fed) :
    seg.redirections.filter (·.1 ≠ .stdin) =
      match c.outputMode with
      | .fileNew => [(.stdout, c.outputFilename)]
      | .append => [(.append, c.outputFilename)]
      | _ => [] := by
  rcases filter_of_countP_le_one ((Nat.le_add_right _ _).trans hvalid.outputs) with
    ⟨hfilter, hno⟩ | ⟨⟨r, f⟩, hmem, hr, hfilter⟩
  · have hnone : ∀ r f, r ≠ Redirection.stdin → (r, f) ∉ seg.redirections := fun r f hr hf =>
      hno _ hf (decide_eq_true hr)
    rw [hfilter]
    cases hpiped : seg.piped with
    | true => rw [h.toPipe.2 hpiped]
    | false => rw [h.toStdout hpiped hnone]
  · have hr : r ≠ .stdin := by simpa using hr
    obtain ⟨hmode, hname⟩ := h.toFile r f hr hmem
    rw [hfilter, hmode, hname]
    cases r with
    | stdin => exact absurd rfl hr
    | stdout | append => rfl

/-- A valid segment has one redirection of each kind at most, and they are those of its command. -/
theorem Segment.Denotes.redirections_perm (h : seg.Denotes fed c) (hvalid : seg.Valid fed) :
    seg.redirections.Perm c.redirections := by
  have hsplit := List.filter_append_perm (fun x : Redirection × Word => decide (x.1 = .stdin)) seg.redirections
  simp only [← decide_not] at hsplit
  rw [h.filter_stdin hvalid, h.filter_stdout hvalid] at hsplit
  exact hsplit.symm

/-! ## Segments written out -/

theorem redirectionTokens_length (rs : List (Redirection × Word)) : (redirectionTokens rs).length = 2 * rs.length := by
  induction rs with
  | nil => rfl
  | cons x rs ih =>
    rw [redirectionTokens, List.flatMap_cons, List.length_append, ← redirectionTokens, ih]
    simp only [List.length_cons, List.length_nil]
    omega

theorem strncpy_words_iff {words : List Word} : words.map strncpy = words ↔ ∀ word ∈ words, '\x00' ∉ word := by
  refine ⟨fun h word hword hnul => ?_, strncpy_words⟩
  have hself : strncpy word = word := List.map_inj_left.1 (h.trans (List.map_id words).symm) word hword
  simpa using List.takeWhile_eq_self_iff.1 hself '\x00' hnul

theorem Segment.Denotes.argv_getD (h : seg.Denotes fed c) : c.argv.getD [] = seg.words.map strncpy := by
  rw [h.argv]
  split
  · next hwords => rw [hwords]; rfl
  · rfl

/-- The connector of a command is the ending of its segment, but for a file that is an operator. -/
theorem Segment.connectorTokens_iff (h : seg.command fed = some c) (hend : seg.ending ≠ .word) :
    c.connectorTokens = seg.ending.tokens ↔
      (seg.ending = .endOfLine → ∀ x ∈ seg.redirections, isTokenSymbol x.2 = false) := by
  cases hending : seg.ending with
  | connector connector => simp [Segment.connectorTokens_connector h hending, Ending.tokens]
  | endOfLine => simpa [Ending.tokens] using (Segment.connectorTokens_endOfLine h hending).1
  | word => exact absurd hending hend

theorem Segment.length_le_of_writes (h : seg.command fed = some c) (hend : seg.ending ≠ .word) {tokens : List Word}
    (hwrites : c.Writes tokens) : seg.tokens.length ≤ tokens.length := by
  obtain ⟨rs, hperm, rfl⟩ := hwrites
  have hdenotes := Segment.denotes_of_command h
  have hvalid := Segment.command_isSome.1 (Option.isSome_of_eq_some h)
  have hlen : rs.length = seg.redirections.length :=
    (hperm.trans (hdenotes.redirections_perm hvalid).symm).length_eq
  have hconnector : seg.ending.tokens.length ≤ c.connectorTokens.length := by
    cases hending : seg.ending with
    | connector connector => simp [Segment.connectorTokens_connector h hending, Ending.tokens]
    | endOfLine => exact Nat.zero_le _
    | word => exact absurd hending hend
  rw [Segment.tokens, ← redirectionTokens, hdenotes.argv_getD]
  simp only [List.length_append, List.length_map, redirectionTokens_length, hlen]
  omega

/-- A segment whose command gives back its tokens. -/
def Segment.Kept (seg : Segment) : Prop :=
  (∀ word ∈ seg.words, '\x00' ∉ word) ∧
    (seg.ending = .endOfLine → ∀ x ∈ seg.redirections, isTokenSymbol x.2 = false)

theorem Segment.writes_iff (h : seg.command fed = some c) (hend : seg.ending ≠ .word) :
    c.Writes seg.tokens ↔ seg.Kept := by
  have hdenotes := Segment.denotes_of_command h
  have hperm := hdenotes.redirections_perm (Segment.command_isSome.1 (Option.isSome_of_eq_some h))
  rw [Segment.Kept, ← strncpy_words_iff, ← Segment.connectorTokens_iff h hend]
  constructor
  · rintro ⟨rs, hrs, htokens⟩
    rw [Segment.tokens, ← redirectionTokens, hdenotes.argv_getD] at htokens
    obtain ⟨hwords, hrest⟩ := List.append_inj htokens (List.length_map _).symm
    have hlen : (redirectionTokens seg.redirections).length = (redirectionTokens rs).length := by
      rw [redirectionTokens_length, redirectionTokens_length, (hrs.trans hperm.symm).length_eq]
    exact ⟨hwords.symm, (List.append_inj hrest hlen).2.symm⟩
  · rintro ⟨hwords, hconnector⟩
    exact ⟨seg.redirections, hperm, by rw [hdenotes.argv_getD, hwords, hconnector]; rfl⟩

/-! ## Lines written out -/

variable {p : Parser} {segs : List Segment} {chain : List Command} {r : Result}

/-- The segment is read to its end, and stands for the command. -/
def Reads (seg : Segment) (c : Command) : Prop := seg.ending ≠ .word ∧ ∃ fed, seg.command fed = some c

theorem reads_of_parse (h : parse p segs = some r) (hstatus : r.status = .success) (hblank : ¬ p.ReadsBlank segs) :
    List.Forall₂ Reads segs r.command := by
  induction segs generalizing p r with
  | nil =>
    cases h
    exact .nil
  | cons seg segs ih =>
    rw [parse, if_neg fun hb => hblank (readsBlank_cons.2 hb)] at h
    cases hcommand : seg.command p.fed with
    | none =>
      rw [hcommand] at h
      cases h
      cases hstatus
    | some c =>
      rw [hcommand] at h
      dsimp only at h
      split_ifs at h with hend
      obtain ⟨rest, hrest, rfl⟩ := Option.map_eq_some_iff.1 h
      unfold Result.prepend at hstatus ⊢
      cases hs : rest.status with
      | success => exact .cons ⟨hend, _, hcommand⟩ (ih hrest hs (not_readsBlank c segs))
      | fail =>
        rw [hs] at hstatus
        cases hs.symm.trans hstatus

theorem writesChain_cons {tokens : List Word} : WritesChain (c :: chain) tokens ↔
    ∃ part rest, c.Writes part ∧ WritesChain chain rest ∧ tokens = part ++ rest := by
  constructor
  · rintro ⟨_, _ | ⟨hpart, hparts⟩, rfl⟩
    exact ⟨_, _, hpart, ⟨_, hparts, rfl⟩, rfl⟩
  · rintro ⟨part, _, hpart, ⟨parts, hparts, rfl⟩, rfl⟩
    exact ⟨part :: parts, .cons hpart hparts, rfl⟩

theorem length_le_of_writesChain (hreads : List.Forall₂ Reads segs chain) {tokens : List Word}
    (hwrites : WritesChain chain tokens) : (segs.flatMap Segment.tokens).length ≤ tokens.length := by
  induction hreads generalizing tokens with
  | nil => exact Nat.zero_le _
  | cons hread _ ih =>
    obtain ⟨part, rest, hpart, hrest, rfl⟩ := writesChain_cons.1 hwrites
    obtain ⟨hend, _, hcommand⟩ := hread
    rw [List.flatMap_cons, List.length_append, List.length_append]
    exact Nat.add_le_add (Segment.length_le_of_writes hcommand hend hpart) (ih hrest)

theorem writesChain_iff (hreads : List.Forall₂ Reads segs chain) :
    WritesChain chain (segs.flatMap Segment.tokens) ↔ ∀ seg ∈ segs, seg.Kept := by
  induction hreads with
  | nil => exact ⟨fun _ => by simp, fun _ => ⟨[], .nil, rfl⟩⟩
  | @cons seg c segs chain hread hreads ih =>
    obtain ⟨hend, _, hcommand⟩ := hread
    rw [List.flatMap_cons, writesChain_cons, List.forall_mem_cons, ← ih, ← Segment.writes_iff hcommand hend]
    constructor
    · rintro ⟨part, rest, hpart, hrest, htokens⟩
      -- neither side of the cut is shorter than what it was read from, so the cut is where the segment ends
      have hlen : seg.tokens.length = part.length := by
        have hle := Segment.length_le_of_writes hcommand hend hpart
        have hle' := length_le_of_writesChain hreads hrest
        have htotal := congrArg List.length htokens
        simp only [List.length_append] at htotal
        omega
      obtain ⟨rfl, rfl⟩ := List.append_inj htokens hlen
      exact ⟨hpart, hrest⟩
    · rintro ⟨hseg, hrest⟩
      exact ⟨_, _, hseg, hrest, rfl⟩

namespace Parser

/-- On the parser a line that is parsed with success is taken whole, and its chain gives it back. -/
def DropsNothing (p : Parser) (buffer : Word) : Prop :=
  ∀ h fuel out, InputHandler.tokenize buffer = some h → p.getCommandList fuel h = some out → out.2.status = .success →
    out.1.tokens = [] ∧ WritesChain out.2.command (h.tokens.map trim)

/-- The tokens of the line are in its segments, each with what its command gives back. -/
def Kept (buffer : Word) : Prop :=
  remaining 50 (lineTokens buffer) = [] ∧ ¬ LacksFile 50 (lineTokens buffer) ∧ ∀ seg ∈ lineSegments buffer, seg.Kept

/-- Of a line that is parsed with success, and not blank, the chain is what its segments say. -/
theorem keeps_iff {fuel : Nat} {tokens : List Word} {out : InputHandler × Result}
    (hout : p.getCommandList fuel ⟨tokens⟩ = some out) (hstatus : out.2.status = .success)
    (hblank : ¬ p.ReadsBlank (segments 50 tokens)) (haccepted : Accepted p.fed (segments 50 tokens)) :
    (out.1.tokens = [] ∧ WritesChain out.2.command (tokens.map trim)) ↔
      remaining 50 tokens = [] ∧ ¬ LacksFile 50 tokens ∧ ∀ seg ∈ segments 50 tokens, seg.Kept := by
  have hreads := reads_of_parse (parse_of_getCommandList hout) hstatus hblank
  rw [tokens_of_getCommandList hout hblank haccepted, and_congr_right_iff, ← writesChain_iff hreads]
  intro hnone
  rcases segments_account 50 haccepted.ending with ⟨hlacks, htokens⟩ | ⟨hlacks, _, htokens⟩
  · rw [hnone, List.map_nil, List.append_nil] at htokens
    rw [htokens, and_iff_right hlacks]
  · -- the empty file name is one token more than the line has
    refine iff_of_false (fun hwrites => ?_) fun h => h.1 hlacks
    have hle := length_le_of_writesChain hreads hwrites
    rw [← htokens, List.length_append] at hle
    exact absurd hle (by simp)

theorem getCommandList_of_parse {tokens : List Word} (h : parse p (segments 50 tokens) = some r) :
    ∃ fuel out, p.getCommandList fuel ⟨tokens⟩ = some out ∧ out.2 = r := by
  have hlist := getCommandList_eq (p := p) (tokens.length + 1) ⟨tokens⟩ (Nat.lt_succ_self _)
  obtain ⟨out, hout, hr⟩ := Option.map_eq_some_iff.1 (hlist.trans h)
  exact ⟨_, out, hout, hr⟩

/-- The lines of which the parser drops nothing. -/
theorem dropsNothing_iff (p : Parser) (buffer : Word) : p.DropsNothing buffer ↔
    ¬ p.ReadsBlank (lineSegments buffer) ∧ (Accepted p.fed (lineSegments buffer) → Kept buffer) := by
  have htokenize := InputHandler.tokenize_eq buffer
  constructor
  · intro h
    have hblank : ¬ p.ReadsBlank (lineSegments buffer) := fun hblank => by
      obtain ⟨fuel, out, hout, hr⟩ := getCommandList_of_parse (parse_of_readsBlank hblank)
      obtain ⟨hne, hleft⟩ := tokens_of_blank hout hblank
      have htaken := (h _ fuel out htokenize hout (by rw [hr])).1
      exact hne (hleft.symm.trans htaken)
    refine ⟨hblank, fun haccepted => ?_⟩
    obtain ⟨chain, q, hparse, _⟩ := parse_of_accepted haccepted hblank
    obtain ⟨fuel, out, hout, hr⟩ := getCommandList_of_parse hparse
    have hstatus : out.2.status = .success := by rw [hr]
    exact (keeps_iff hout hstatus hblank haccepted).1 (h _ fuel out htokenize hout hstatus)
  · rintro ⟨hblank, hkept⟩ h fuel out hh hout hstatus
    rw [htokenize] at hh
    cases hh
    have haccepted := (accepted_of_parse (parse_of_getCommandList hout) hstatus).resolve_left hblank
    exact (keeps_iff hout hstatus hblank haccepted).2 (hkept haccepted)

/-- A line that begins with an operator is parsed with success to nothing, and nothing of it is taken. -/
theorem drops_line : ∃ h out, InputHandler.tokenize "; ls".toList = some h ∧
    ({} : Parser).getCommandList 10 h = some out ∧ out.2.status = .success ∧ out.2.command = [] ∧
    out.1.tokens = [";".toList, "ls".toList] ∧ ¬ ({} : Parser).DropsNothing "; ls".toList := by
  refine ⟨_, _, rfl, rfl, rfl, rfl, rfl, fun h => ?_⟩
  cases (h _ 10 _ rfl rfl rfl).1

end Parser

end UnixSysProg.Osh
