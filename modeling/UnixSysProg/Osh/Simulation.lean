/-
The parser reads segments: whatever the line and the parser, `getCommandList` with enough fuel gives the
result of the first fifty segments of the line, and with less fuel no other one. A pass of the inner loop that
finds a word takes no token and does not end the command, so that a word right after the file of a redirection
keeps the parser busy for ever.
-/
import UnixSysProg.Osh.Grammar

namespace UnixSysProg.Osh

namespace Parser

/-- The file of a redirection: the next token, or nothing at the end of the line. -/
def operand : List Word → Word
  | [] => []
  | token :: _ => trim token

theorem getNextToken_operand (tokens : List Word) :
    ∃ status, (⟨tokens⟩ : InputHandler).getNextToken = (status, operand tokens, ⟨tokens.tail⟩) := by
  cases tokens with
  | nil => exact ⟨_, rfl⟩
  | cons token tokens => exact ⟨_, rfl⟩

/-- `initInputOutput` on a redirection makes it, with the next token as its file. -/
theorem initInputOutput_redirection {r : Redirection} {token : Word} (tokens : List Word) (c : Command)
    (hr : Redirection.ofToken (trim token) = some r) :
    initInputOutput ⟨token :: tokens⟩ c =
      match c.redirect (r, operand tokens) with
      | none => (.fail, ⟨tokens⟩, { c with parseState := .invalid })
      | some c' => (.success, ⟨tokens.tail⟩, c') := by
  obtain ⟨status, hnext⟩ := getNextToken_operand tokens
  obtain ⟨run, hrun⟩ := c.setRunNextCommand_eq (operand tokens)
  have htoken := Redirection.eq_symbol hr
  unfold initInputOutput
  rw [InputHandler.getNextToken_cons, htoken]
  dsimp only
  rw [hnext]
  cases r with
  | stdin =>
    by_cases hmode : c.inputMode = .stdin
    · simp [Redirection.symbol, Command.redirect, hmode, hrun]
    · simp [Redirection.symbol, Command.redirect, hmode]
  | stdout =>
    by_cases hmode : c.outputMode = .stdout
    · simp [Redirection.symbol, Command.redirect, hmode, hrun, redirStdin, redirStdout]
    · simp [Redirection.symbol, Command.redirect, hmode, redirStdin, redirStdout]
  | append =>
    by_cases hmode : c.outputMode = .stdout
    · simp [Redirection.symbol, Command.redirect, hmode, hrun, redirStdin, redirStdout, appendStdout]
    · simp [Redirection.symbol, Command.redirect, hmode, redirStdin, redirStdout, appendStdout]

/-- `initInputOutput` on a pipe ends the command with it. -/
theorem initInputOutput_pipe {token : Word} (tokens : List Word) (c : Command) (htoken : trim token = redirPipe) :
    initInputOutput ⟨token :: tokens⟩ c =
      match c.finish (.connector .pipe) with
      | none => (.fail, ⟨tokens⟩, { c with parseState := .invalid })
      | some c' => (.success, ⟨tokens⟩, c') := by
  have hrun : ∀ c : Command, c.setRunNextCommand redirPipe = { c with runNextCommand := .redirPipe } :=
    fun c => c.setRunNextCommand_connector .pipe
  unfold initInputOutput
  rw [InputHandler.getNextToken_cons, htoken]
  dsimp only
  rw [if_neg (by decide), if_neg (by decide), if_neg (by decide), if_pos rfl]
  by_cases hmode : c.outputMode = .stdout
  · simp [Command.finish, hmode, hrun]
  · simp [Command.finish, hmode]

/-! ## A pass of the inner loop -/

variable {c c' : Command} {token : Word} {tokens : List Word} {status : Status} {fuel : Nat}

theorem commandLoop_of_ended (h : InputHandler) (hc : c.parseState = .parsed ∨ c.parseState = .invalid) :
    commandLoop (fuel + 1) h c status = some (h, c, status) := by
  rw [commandLoop, if_neg (by rcases hc with hc | hc <;> rw [hc] <;> decide)]

theorem commandLoop_redirection {r : Redirection} (hc : c.parseState = .needToken)
    (hr : Redirection.ofToken (trim token) = some r) :
    commandLoop (fuel + 1) ⟨token :: tokens⟩ c status =
      match c.redirect (r, operand tokens) with
      | none =>
        if tokens = [] then some (⟨[]⟩, { c with parseState := .invalid }, .fail)
        else commandLoop fuel ⟨tokens⟩ { c with parseState := .invalid } .fail
      | some c' =>
        if tokens.tail = [] then some (⟨[]⟩, { c' with parseState := .parsed }, .success)
        else commandLoop fuel ⟨tokens.tail⟩ c' .success := by
  have htoken := Redirection.eq_symbol hr
  have hsymbol : trim token = redirStdout ∨ trim token = redirStdin ∨ trim token = redirPipe ∨
      trim token = appendStdout := by
    rw [htoken]
    cases r <;> simp [Redirection.symbol]
  have hend : isEndOfCommand (trim token) = false := by
    rw [htoken]
    cases r <;> rfl
  have hpeek : ∀ ts : List Word, (⟨ts⟩ : InputHandler).peekNextToken.1 = .fail ↔ ts = [] := fun ts => by
    cases ts <;> simp [InputHandler.peekNextToken]
  rw [commandLoop, if_pos (by rw [hc]; decide)]
  simp only [InputHandler.peekNextToken_cons, hsymbol, initInputOutput_redirection tokens c hr]
  cases hredirect : c.redirect (r, operand tokens) with
  | none =>
    by_cases hts : tokens = []
    · simp [hend, hts]
    · simp [hend, hpeek, hts]
  | some c' =>
    have hstate := (Command.redirect_parseState hredirect).trans hc
    have hvalid : c'.parseState ≠ .invalid := by rw [hstate]; decide
    by_cases hts : tokens.tail = []
    · simp [hend, hts, hvalid]
    · simp [hend, hpeek, hts]

theorem commandLoop_connector {connector : Connector} (hc : c.parseState = .needToken)
    (hk : Connector.ofToken (trim token) = some connector) :
    commandLoop (fuel + 1) ⟨token :: tokens⟩ c status =
      match c.finish (.connector connector) with
      | none => some (⟨tokens⟩, { c with parseState := .invalid }, .fail)
      | some c' => some (⟨tokens⟩, c', .success) := by
  have htoken := Connector.eq_symbol hk
  have hend : isEndOfCommand (trim token) = true := by
    rw [htoken]
    cases connector <;> rfl
  rw [commandLoop, if_pos (by rw [hc]; decide)]
  simp only [InputHandler.peekNextToken_cons, hend]
  by_cases hpipe : connector = .pipe
  · subst hpipe
    have hsymbol : trim token = redirStdout ∨ trim token = redirStdin ∨ trim token = redirPipe ∨
        trim token = appendStdout := .inr (.inr (.inl htoken))
    simp only [hsymbol, initInputOutput_pipe tokens c htoken]
    by_cases hmode : c.outputMode = .stdout
    · simp [Command.finish, hmode]
    · simp [Command.finish, hmode]
  · have hfinish : c.finish (.connector connector) =
        some { c with runNextCommand := connector.runNextCommand, parseState := .parsed } := by
      cases connector with
      | pipe => exact absurd rfl hpipe
      | any | onSuccess | onFailure => rfl
    have hsymbol : ¬ (trim token = redirStdout ∨ trim token = redirStdin ∨ trim token = redirPipe ∨
        trim token = appendStdout) := by
      rw [htoken]
      cases connector with
      | pipe => exact absurd rfl hpipe
      | any | onSuccess | onFailure => decide
    have hcond : trim token = execAny ∨ trim token = execOnfailure ∨ trim token = execOnsuccess := by
      rw [htoken]
      cases connector with
      | pipe => exact absurd rfl hpipe
      | any | onSuccess | onFailure => decide
    have hexec : initConditionalExecSymbol ⟨token :: tokens⟩ c =
        (.success, ⟨tokens⟩, { c with runNextCommand := connector.runNextCommand, parseState := .parsed }) := by
      simp [initConditionalExecSymbol, htoken]
    simp [hsymbol, hcond, hexec, hfinish]

theorem commandLoop_word (hc : c.parseState = .needToken) (hword : isTokenSymbol (trim token) = false) :
    commandLoop (fuel + 1) ⟨token :: tokens⟩ c status = commandLoop fuel ⟨token :: tokens⟩ c .success := by
  have hend : isEndOfCommand (trim token) = false := by
    simp_all [isTokenSymbol, isEndOfCommand]
  have hsymbol : ¬ (trim token = redirStdout ∨ trim token = redirStdin ∨ trim token = redirPipe ∨
      trim token = appendStdout) := by
    simp_all [isTokenSymbol]
  have hcond : ¬ (trim token = execAny ∨ trim token = execOnfailure ∨ trim token = execOnsuccess) := by
    simp_all [isTokenSymbol]
  rw [commandLoop, if_pos (by rw [hc]; decide)]
  simp [hend, hsymbol, hcond]

/-- A word after the redirections of a command is never taken: no number of passes ends the loop. -/
theorem commandLoop_stuck (hc : c.parseState = .needToken) (hword : isTokenSymbol (trim token) = false) :
    commandLoop fuel ⟨token :: tokens⟩ c status = none := by
  induction fuel generalizing status with
  | zero => rfl
  | succ fuel ih => rw [commandLoop_word hc hword, ih]

/-! ## The inner loop -/

/-- How the inner loop ends on a segment with this ending and the tokens `rest` after it, by the command
that the segment stands for. -/
inductive Ends (ending : Ending) (rest : List Word) : Option Command → Option (InputHandler × Command × Status) → Prop
  | invalid {h : InputHandler} {c : Command} {status : Status} : c.parseState = .invalid →
      Ends ending rest none (some (h, c, status))
  | parsed {c : Command} : ending ≠ .word → c.parseState = .parsed →
      Ends ending rest (some c) (some (⟨rest⟩, c, .success))
  | stuck {c : Command} : ending = .word → Ends ending rest (some c) none

theorem finish_parsed {ending : Ending} (h : c.finish ending = some c') (hend : ending ≠ .word) :
    c'.parseState = .parsed := by
  cases ending with
  | endOfLine => cases h; rfl
  | connector connector =>
    cases connector with
    | pipe =>
      simp only [Command.finish] at h
      split_ifs at h
      cases h; rfl
    | any | onSuccess | onFailure => cases h; rfl
  | word => exact absurd rfl hend

/-- At a token that is no redirection the command ends. -/
theorem commandLoop_ending (hc : c.parseState = .needToken) (hr : Redirection.ofToken (trim token) = none) :
    Ends (splitEnding (token :: tokens)).1 (splitEnding (token :: tokens)).2
      (c.finish (splitEnding (token :: tokens)).1) (commandLoop (fuel + 1) ⟨token :: tokens⟩ c status) := by
  cases hk : Connector.ofToken (trim token) with
  | none =>
    rw [commandLoop_stuck hc (isTokenSymbol_eq_false.2 ⟨hr, hk⟩)]
    simp only [splitEnding, hk]
    exact .stuck rfl
  | some connector =>
    rw [commandLoop_connector hc hk]
    simp only [splitEnding, hk]
    cases hfinish : c.finish (.connector connector) with
    | none => exact .invalid rfl
    | some c' => exact .parsed (by simp) (finish_parsed hfinish (by simp))

theorem commandLoop_ends (c : Command) (status : Status) (hc : c.parseState = .needToken) (hne : tokens ≠ [])
    (hfuel : tokens.length < fuel) :
    Ends (splitEnding (splitRedirections tokens).2).1 (splitEnding (splitRedirections tokens).2).2
      ((splitRedirections tokens).1.foldlM Command.redirect c >>= (·.finish (splitEnding (splitRedirections tokens).2).1))
      (commandLoop fuel ⟨tokens⟩ c status) := by
  obtain ⟨fuel, rfl⟩ := Nat.exists_eq_add_of_lt hfuel
  fun_induction splitRedirections tokens generalizing c status fuel with
  | case1 => exact absurd rfl hne
  | case2 token hr => exact commandLoop_ending hc hr
  | case3 token r hr =>
    rw [commandLoop_redirection hc hr]
    cases hredirect : c.redirect (r, []) with
    | none => simpa [operand, hredirect] using Ends.invalid rfl
    | some c' => simpa [operand, hredirect, splitEnding, Command.finish] using Ends.parsed (by simp) rfl
  | case4 token file rest hr => exact commandLoop_ending hc hr
  | case5 token file rest r hr redirections rest' hsplit ih =>
    rw [commandLoop_redirection hc hr]
    cases hredirect : c.redirect (r, trim file) with
    | none =>
      simp only [operand, hredirect, reduceCtorEq, if_false, List.foldlM_cons, Option.bind_eq_bind, Option.bind_none]
      rw [List.length_cons, Nat.add_right_comm, commandLoop_of_ended _ (.inr rfl)]
      exact .invalid rfl
    | some c' =>
      have hstate := (Command.redirect_parseState hredirect).trans hc
      have hlen : (token :: file :: rest).length + fuel = rest.length + (fuel + 1) + 1 := by
        simp only [List.length_cons]
        omega
      simp only [operand, hredirect, List.foldlM_cons, Option.bind_eq_bind, Option.bind_some]
      by_cases hrest : rest = []
      · subst hrest
        cases hsplit
        simpa [splitEnding, Command.finish] using Ends.parsed (by simp) rfl
      · rw [if_neg (show (file :: rest).tail ≠ [] from hrest), hlen]
        have := ih c' .success hstate hrest (fuel + 1) (by omega)
        rwa [hsplit] at this

/-! ## The words of a command -/

theorem argvTokens_eq (c : Command) (tokens : List Word) :
    argvTokens c tokens = ((tokens.takeWhile isWord).map trim, ⟨tokens.dropWhile isWord⟩,
      if tokens.dropWhile isWord = [] then { c with parseState := .parsed } else c) := by
  induction tokens with
  | nil => rfl
  | cons token tokens ih =>
    cases hsymbol : isTokenSymbol (trim token) with
    | true =>
      have hword : isWord token = false := by simp [isWord, hsymbol]
      simp [argvTokens, hsymbol, hword]
    | false =>
      have hword : isWord token = true := by simp [isWord, hsymbol]
      simp [argvTokens, hsymbol, hword, ih]

theorem initCommand_eq (p : Parser) :
    p.initCommand {} = (.success, { parseState := .needToken, inputMode := if p.fed then .pipe else .stdin }) := by
  unfold initCommand fed
  cases p.prevCommand with
  | none => rfl
  | some prev =>
    by_cases hpipe : prev.outputMode = .pipe
    · simp [hpipe]
    · simp [hpipe]

variable {p : Parser}

theorem initArgv_words (c : Command) (hwords : tokens.takeWhile isWord ≠ []) :
    p.initArgv ⟨tokens⟩ c = (.success, ⟨tokens.dropWhile isWord⟩,
      { (if tokens.dropWhile isWord = [] then { c with parseState := .parsed } else c) with
        argv := some (((tokens.takeWhile isWord).map trim).map strncpy) }) := by
  unfold initArgv
  rw [argvTokens_eq]
  dsimp only
  rw [if_pos (by simpa [List.length_pos_iff] using hwords)]

theorem initArgv_none {prev : Command} (c : Command) (hne : tokens ≠ []) (hwords : tokens.takeWhile isWord = [])
    (hprev : p.prevCommand = some prev) :
    p.initArgv ⟨tokens⟩ c = (.success, ⟨tokens⟩,
      { (if p.fed then { c with parseState := .invalid } else c) with argv := none }) := by
  unfold initArgv
  rw [argvTokens_eq, hwords, dropWhile_isWord hwords, if_neg hne]
  by_cases hpipe : prev.outputMode = .pipe
  · simp [fed, hprev, hpipe]
  · simp [fed, hprev, hpipe]

theorem initArgv_blank (c : Command) (hne : tokens ≠ []) (hwords : tokens.takeWhile isWord = [])
    (hprev : p.prevCommand = none) :
    p.initArgv ⟨tokens⟩ c = (.success, ⟨tokens⟩, { c with parseState := .blank, argv := some [] }) := by
  unfold initArgv
  rw [argvTokens_eq, hwords, dropWhile_isWord hwords, if_neg hne]
  simp [hprev]

/-- A pass of `getCommandList` on the tokens of a segment, up to the inner loop and through it. -/
theorem initArgv_ends (hne : tokens ≠ []) (hfuel : tokens.length < fuel) (hblank : ¬ p.Blank (splitSegment tokens).1) :
    ∃ h c, p.initArgv ⟨tokens⟩ (p.initCommand {}).2 = (.success, h, c) ∧ c.parseState ≠ .blank ∧
      Ends (splitSegment tokens).1.ending (splitSegment tokens).2 ((splitSegment tokens).1.command p.fed)
        (commandLoop fuel h c .success) := by
  rw [initCommand_eq]
  obtain ⟨fuel, rfl⟩ := Nat.exists_eq_add_of_lt hfuel
  by_cases hwords : tokens.takeWhile isWord = []
  · have hprev : ∃ prev, p.prevCommand = some prev :=
      Option.ne_none_iff_exists'.1 fun hprev => hblank ⟨hprev, by simp [splitSegment, hwords]⟩
    obtain ⟨prev, hprev⟩ := hprev
    have hall := dropWhile_isWord hwords
    refine ⟨_, _, initArgv_none _ hne hwords hprev, ?_⟩
    by_cases hfed : p.fed = true
    · refine ⟨by simp [hfed], ?_⟩
      rw [commandLoop_of_ended _ (.inr (by simp [hfed]))]
      have : (splitSegment tokens).1.command p.fed = none := by
        simp [Segment.command, splitSegment, hwords, hfed]
      rw [this]
      exact .invalid (by simp [hfed])
    · have hends := commandLoop_ends { parseState := .needToken } .success rfl hne hfuel
      refine ⟨by simp [hfed], ?_⟩
      simpa [Segment.command, Segment.start, splitSegment, hwords, hfed, hall] using hends
  · refine ⟨_, _, initArgv_words _ hwords, ?_⟩
    by_cases hrest : tokens.dropWhile isWord = []
    · refine ⟨by simp [hrest], ?_⟩
      rw [commandLoop_of_ended _ (.inl (by simp [hrest]))]
      simpa [Segment.command, Segment.start, splitSegment, splitRedirections, splitEnding, hwords, hrest,
        Command.finish] using Ends.parsed (by simp) rfl
    · have hlen : (tokens.dropWhile isWord).length < tokens.length + fuel + 1 :=
        lt_of_le_of_lt (List.dropWhile_sublist _).length_le hfuel
      refine ⟨by simp [hrest], ?_⟩
      have hends := commandLoop_ends {
        parseState := .needToken
        argv := some (((tokens.takeWhile isWord).map trim).map strncpy)
        inputMode := if p.fed then .pipe else .stdin } .success rfl hrest hlen
      simpa [Segment.command, Segment.start, splitSegment, hwords, hrest] using hends

/-! ## The line -/

/-- A segment without words on a fresh parser is read again in every pass that is left. -/
theorem commandListLoop_blank (hne : tokens ≠ []) (hblank : p.Blank (splitSegment tokens).1) (i : Nat)
    (chain : List Command) :
    commandListLoop fuel i p ⟨tokens⟩ chain .success = some (⟨tokens⟩, ⟨.success, chain, p⟩) := by
  obtain ⟨hprev, hwords⟩ := hblank
  have hwords : tokens.takeWhile isWord = [] := by simpa [splitSegment] using hwords
  induction i with
  | zero => rfl
  | succ i ih =>
    rw [commandListLoop, initCommand_eq]
    simp [InputHandler.isEndOfLine, hne, initArgv_blank _ hne hwords hprev, hprev, ih]

theorem commandListLoop_eq (hfuel : tokens.length < fuel) (i : Nat) (chain : List Command) :
    (commandListLoop fuel i p ⟨tokens⟩ chain .success).map (·.2) =
      (parse p (segments i tokens)).map (Result.prepend chain) := by
  induction i generalizing p tokens chain with
  | zero => simp [commandListLoop, segments, parse, Result.prepend]
  | succ i ih =>
    by_cases hne : tokens = []
    · simp [hne, commandListLoop, segments, parse, Result.prepend, InputHandler.isEndOfLine]
    · rw [segments_succ i hne, parse]
      by_cases hblank : p.Blank (splitSegment tokens).1
      · rw [commandListLoop_blank hne hblank, if_pos hblank]
        simp [Result.prepend]
      · rw [if_neg hblank]
        obtain ⟨h, c, hargv, hstate, hends⟩ := initArgv_ends hne hfuel hblank
        rw [initCommand_eq] at hargv
        rw [commandListLoop, initCommand_eq]
        have hrest := lt_of_le_of_lt (splitSegment_length tokens) hfuel
        simp only [InputHandler.isEndOfLine, hargv, List.isEmpty_iff, hne, if_false, and_self, if_true, hstate]
        generalize (splitSegment tokens).1.command p.fed = spec at hends ⊢
        generalize (splitSegment tokens).1.ending = ending at hends ⊢
        generalize commandLoop fuel h c .success = out at hends ⊢
        cases hends with
        | invalid hinvalid => simp [hinvalid, Result.prepend]
        | parsed hend hparsed =>
          simp only [hparsed, and_self, if_true, hend, if_false, ih hrest, Option.map_map]
          congr 1
          funext result
          simp [Result.prepend_prepend]
        | stuck hend => simp [hend]

theorem getCommandList_eq (fuel : Nat) (h : InputHandler) (hfuel : h.tokens.length < fuel) :
    (p.getCommandList fuel h).map (·.2) = parse p (segments 50 h.tokens) := by
  have hprepend : Result.prepend [] = id := funext Result.prepend_nil
  rw [getCommandList, commandListLoop_eq hfuel, hprepend, Option.map_id, id]

/-! ## Less fuel -/

theorem commandLoop_mono {h : InputHandler} {out : InputHandler × Command × Status}
    (hout : commandLoop fuel h c status = some out) : commandLoop (fuel + 1) h c status = some out := by
  induction fuel generalizing h c status with
  | zero => cases hout
  | succ fuel ih =>
    -- the tests of a pass do not depend on the fuel
    rw [commandLoop] at hout ⊢
    dsimp only at hout ⊢
    split_ifs at hout ⊢ <;> first | exact hout | exact ih hout

theorem commandListLoop_mono {i : Nat} {h : InputHandler} {chain : List Command} {out : InputHandler × Result}
    (hout : commandListLoop fuel i p h chain status = some out) :
    commandListLoop (fuel + 1) i p h chain status = some out := by
  induction i generalizing p h chain status with
  | zero => exact hout
  | succ i ih =>
    rw [commandListLoop, initCommand_eq] at hout ⊢
    simp only [and_self, if_true] at hout ⊢
    generalize p.initArgv h _ = triple at hout ⊢
    cases hloop : commandLoop fuel triple.2.1 triple.2.2 triple.1 with
    | none =>
      rw [hloop] at hout
      split_ifs at hout ⊢ <;> first | exact hout | exact ih hout
    | some ended =>
      rw [hloop] at hout
      rw [commandLoop_mono hloop]
      dsimp only at hout ⊢
      split_ifs at hout ⊢ <;> first | exact hout | exact ih hout

theorem getCommandList_mono {h : InputHandler} {out : InputHandler × Result} (hout : p.getCommandList fuel h = some out) :
    ∀ k, p.getCommandList (fuel + k) h = some out
  | 0 => hout
  | k + 1 => commandListLoop_mono (getCommandList_mono hout k)

/-- Whatever `getCommandList` returns is the result of the segments. -/
theorem parse_of_getCommandList {h : InputHandler} {out : InputHandler × Result}
    (hout : p.getCommandList fuel h = some out) : parse p (segments 50 h.tokens) = some out.2 := by
  rw [← getCommandList_eq (fuel + (h.tokens.length + 1)) h (by omega), getCommandList_mono hout]
  rfl

theorem parseLine_eq (buffer : Word) (hfuel : (lineTokens buffer).length < fuel) :
    p.parseLine fuel buffer = parse p (lineSegments buffer) := by
  rw [parseLine, InputHandler.tokenize_eq]
  exact getCommandList_eq fuel ⟨lineTokens buffer⟩ hfuel

/-- Parsing a line returns what the segments of the line give, and nothing when they give nothing. -/
theorem parseLine_iff (buffer : Word) (result : Result) :
    (∃ fuel, p.parseLine fuel buffer = some result) ↔ parse p (lineSegments buffer) = some result := by
  constructor
  · rintro ⟨fuel, hout⟩
    rw [parseLine, InputHandler.tokenize_eq] at hout
    obtain ⟨out, hlist, rfl⟩ := Option.map_eq_some_iff.1 hout
    exact parse_of_getCommandList hlist
  · intro hparse
    exact ⟨_, (parseLine_eq buffer (Nat.lt_succ_self _)).trans hparse⟩

/-! ## When the parser returns -/

/-- A line is parsed to an end when no segment up to the first invalid one has a word after its redirections,
or when the first one is blank: then the passes of the loop are used up on it. -/
theorem parseLine_returns_iff (p : Parser) (buffer : Word) :
    (∃ fuel result, p.parseLine fuel buffer = some result) ↔
      p.ReadsBlank (lineSegments buffer) ∨ ¬ Stuck p.fed (lineSegments buffer) := by
  have hnone : parse p (lineSegments buffer) = none ↔ _ := parse_eq_none
  rw [exists_comm]
  simp only [parseLine_iff]
  rw [← Option.ne_none_iff_exists', ne_eq, hnone]
  tauto

/-- A word behind the file that the output goes to. -/
theorem parseLine_hangs : ¬ ∃ fuel result, ({} : Parser).parseLine fuel "ls > f x".toList = some result := by
  rintro ⟨fuel, result, hresult⟩
  have hparse := (parseLine_iff _ result).1 ⟨fuel, hresult⟩
  have hnone : parse {} (lineSegments "ls > f x".toList) = none := rfl
  rw [hnone] at hparse
  cases hparse

end Parser

end UnixSysProg.Osh
