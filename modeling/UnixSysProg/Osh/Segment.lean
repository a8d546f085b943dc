/-
What a line of `osh` says, independently of how the parser goes about it: it is a list of segments, each the
words of a command, its redirections, and what comes after them. A segment stands for a command, given the
one before it, unless it is invalid; a word after a redirection belongs to no segment at all.
-/
import UnixSysProg.Osh.Parser

namespace UnixSysProg.Osh

open UnixSysProg.Lib

/-! ## Operators by their roles -/

inductive Redirection
  | stdin
  | stdout
  | append
  deriving DecidableEq

namespace Redirection

def symbol : Redirection → Word
  | stdin => redirStdin
  | stdout => redirStdout
  | append => appendStdout

def ofToken (token : Word) : Option Redirection :=
  if token = redirStdin then some stdin
  else if token = redirStdout then some stdout
  else if token = appendStdout then some append
  else none

@[simp] theorem ofToken_symbol (r : Redirection) : ofToken r.symbol = some r := by
  cases r <;> rfl

theorem eq_symbol {token : Word} {r : Redirection} (h : ofToken token = some r) : token = r.symbol := by
  unfold ofToken at h
  split_ifs at h with hin hout happ <;> cases h
  · exact hin
  · exact hout
  · exact happ

end Redirection

inductive Connector
  | pipe
  | any
  | onSuccess
  | onFailure
  deriving DecidableEq

namespace Connector

def symbol : Connector → Word
  | pipe => redirPipe
  | any => execAny
  | onSuccess => execOnsuccess
  | onFailure => execOnfailure

def ofToken (token : Word) : Option Connector :=
  if token = redirPipe then some pipe
  else if token = execAny then some any
  else if token = execOnsuccess then some onSuccess
  else if token = execOnfailure then some onFailure
  else none

/-- The value of `runNextCommand` for the connector. -/
def runNextCommand : Connector → RunNextCommandSymbol
  | pipe => .redirPipe
  | any => .execAny
  | onSuccess => .execOnsuccess
  | onFailure => .execOnfailure

@[simp] theorem ofToken_symbol (c : Connector) : ofToken c.symbol = some c := by
  cases c <;> rfl

theorem eq_symbol {token : Word} {c : Connector} (h : ofToken token = some c) : token = c.symbol := by
  unfold ofToken at h
  split_ifs at h with hpipe hany hsucc hfail <;> cases h
  · exact hpipe
  · exact hany
  · exact hsucc
  · exact hfail

end Connector

/-- A token that is no operator. -/
theorem isTokenSymbol_eq_false {token : Word} :
    isTokenSymbol token = false ↔ Redirection.ofToken token = none ∧ Connector.ofToken token = none := by
  unfold isTokenSymbol Redirection.ofToken Connector.ofToken
  split_ifs <;> simp_all

/-! ## Segments -/

/-- What comes after the redirections of a command. -/
inductive Ending
  | endOfLine
  | connector (c : Connector)
  | word
  deriving DecidableEq

/-- The value of `runNextCommand` for an ending. -/
def Ending.runNextCommand : Ending → RunNextCommandSymbol
  | connector c => c.runNextCommand
  | _ => .none

/-- The part of a line that belongs to one command. -/
structure Segment where
  words : List Word
  redirections : List (Redirection × Word)
  ending : Ending
  deriving DecidableEq

/-- The redirections that a list of tokens starts with, each with the token after it, an operator or not. -/
def splitRedirections : List Word → List (Redirection × Word) × List Word
  | [] => ([], [])
  | [token] =>
    match Redirection.ofToken (trim token) with
    | none => ([], [token])
    | some r => ([(r, [])], [])
  | token :: file :: rest =>
    match Redirection.ofToken (trim token) with
    | none => ([], token :: file :: rest)
    | some r =>
      let (redirections, rest) := splitRedirections rest
      ((r, trim file) :: redirections, rest)

def splitEnding : List Word → Ending × List Word
  | [] => (.endOfLine, [])
  | token :: rest =>
    match Connector.ofToken (trim token) with
    | none => (.word, token :: rest)
    | some c => (.connector c, rest)

/-- The token is no operator. -/
def isWord (token : Word) : Bool := !isTokenSymbol (trim token)

theorem dropWhile_isWord {tokens : List Word} (hwords : tokens.takeWhile isWord = []) :
    tokens.dropWhile isWord = tokens := by
  simpa [hwords] using List.takeWhile_append_dropWhile (p := isWord) (l := tokens)

/-- The first segment of a list of tokens, and the tokens after it. -/
def splitSegment (tokens : List Word) : Segment × List Word :=
  let words := tokens.takeWhile isWord
  let (redirections, rest) := splitRedirections (tokens.dropWhile isWord)
  let (ending, rest) := splitEnding rest
  (⟨words.map trim, redirections, ending⟩, rest)

theorem splitRedirections_length (tokens : List Word) : (splitRedirections tokens).2.length ≤ tokens.length := by
  fun_induction splitRedirections tokens with
  | case1 | case2 | case3 | case4 => simp
  | case5 token file rest r hr redirections rest' hsplit ih =>
    rw [hsplit] at ih
    exact ih.trans (Nat.le_succ_of_le (Nat.le_succ _))

theorem splitEnding_length (tokens : List Word) : (splitEnding tokens).2.length ≤ tokens.length := by
  unfold splitEnding
  split
  · exact le_rfl
  · split <;> simp

theorem splitSegment_length (tokens : List Word) : (splitSegment tokens).2.length ≤ tokens.length :=
  calc (splitSegment tokens).2.length ≤ (splitRedirections (tokens.dropWhile isWord)).2.length := splitEnding_length _
    _ ≤ (tokens.dropWhile isWord).length := splitRedirections_length _
    _ ≤ tokens.length := (List.dropWhile_sublist _).length_le

/-- The first `n` segments, up to the first one with a word after its redirections. -/
def segments : Nat → List Word → List Segment
  | 0, _ => []
  | _, [] => []
  | n + 1, tokens =>
    let (seg, rest) := splitSegment tokens
    seg :: if seg.ending = .word then [] else segments n rest

theorem segments_succ {tokens : List Word} (n : Nat) (hne : tokens ≠ []) :
    segments (n + 1) tokens = (splitSegment tokens).1 ::
      if (splitSegment tokens).1.ending = .word then [] else segments n (splitSegment tokens).2 := by
  cases tokens with
  | nil => exact absurd rfl hne
  | cons token tokens => rfl

/-- The tokens of a line: its characters between blanks. -/
def lineTokens (buffer : Word) : List Word := runs (· ∈ [' ']) buffer

/-- The segments of a line that one call of the parser can read. -/
def lineSegments (buffer : Word) : List Segment := segments 50 (lineTokens buffer)

/-! ## The command of a segment -/

namespace Command

/-- `setRunNextCommand` changes one field, whatever the others are. -/
theorem setRunNextCommand_eq (c : Command) (symbol : Word) : ∃ run, ∀ c' : Command,
    c'.runNextCommand = c.runNextCommand → c'.setRunNextCommand symbol = { c' with runNextCommand := run } := by
  unfold setRunNextCommand
  split_ifs
  · exact ⟨_, fun _ _ => rfl⟩
  · exact ⟨_, fun _ _ => rfl⟩
  · exact ⟨_, fun _ _ => rfl⟩
  · exact ⟨_, fun _ _ => rfl⟩
  · exact ⟨_, fun _ _ => rfl⟩
  · exact ⟨_, fun _ _ => rfl⟩
  · exact ⟨_, fun _ _ => rfl⟩
  · exact ⟨c.runNextCommand, fun c' h => by rw [← h]⟩

theorem setRunNextCommand_word (c : Command) {symbol : Word} (h : isTokenSymbol symbol = false) :
    c.setRunNextCommand symbol = c := by
  simp [isTokenSymbol] at h
  simp [setRunNextCommand, h]

@[simp] theorem setRunNextCommand_connector (c : Command) (connector : Connector) :
    c.setRunNextCommand connector.symbol = { c with runNextCommand := connector.runNextCommand } := by
  cases connector <;> rfl

/-- A redirection of the input or the output, each of which can be redirected once. -/
def redirect (c : Command) : Redirection × Word → Option Command
  | (.stdin, file) =>
    if c.inputMode ≠ .stdin then none
    else some { c.setRunNextCommand file with inputMode := .file, inputFilename := file }
  | (.stdout, file) =>
    if c.outputMode ≠ .stdout then none
    else some { c.setRunNextCommand file with outputMode := .fileNew, outputFilename := file }
  | (.append, file) =>
    if c.outputMode ≠ .stdout then none
    else some { c.setRunNextCommand file with outputMode := .append, outputFilename := file }

theorem redirect_parseState {c c' : Command} {x : Redirection × Word} (h : c.redirect x = some c') :
    c'.parseState = c.parseState := by
  obtain ⟨run, hrun⟩ := c.setRunNextCommand_eq x.2
  obtain ⟨r, file⟩ := x
  cases r <;> simp only [redirect, hrun] at h <;> split_ifs at h <;> cases h <;> rfl

/-- The end of a command: a pipe takes the output. -/
def finish (c : Command) : Ending → Option Command
  | .endOfLine => some { c with parseState := .parsed }
  | .connector .pipe =>
    if c.outputMode ≠ .stdout then none
    else some { c with outputMode := .pipe, runNextCommand := .redirPipe, parseState := .parsed }
  | .connector connector => some { c with runNextCommand := connector.runNextCommand, parseState := .parsed }
  | .word => some c

end Command

namespace Segment

variable (seg : Segment)

/-- The command with its words, in front of its redirections. -/
def start (fed : Bool) : Command where
  parseState := .needToken
  argv := if seg.words = [] then none else some (seg.words.map strncpy)
  inputMode := if fed then .pipe else .stdin

/-- The command that a segment stands for; `none` when it is invalid, as without words when fed by a pipe. -/
def command (fed : Bool) : Option Command :=
  if fed ∧ seg.words = [] then none
  else seg.redirections.foldlM Command.redirect (seg.start fed) >>= (·.finish seg.ending)

end Segment

namespace Parser

variable (p : Parser)

/-- The last command parsed writes into a pipe. -/
def fed : Bool := p.prevCommand.any (·.outputMode = .pipe)

/-- A segment without words, on a parser that has never parsed a command. -/
def Blank (seg : Segment) : Prop := p.prevCommand = none ∧ seg.words = []

instance (seg : Segment) : Decidable (p.Blank seg) := inferInstanceAs (Decidable (_ ∧ _))

end Parser

/-- The result of a line with further commands in front, which a rejected line loses. -/
def Result.prepend (chain : List Command) (result : Result) : Result :=
  match result.status with
  | .success => { result with command := chain ++ result.command }
  | .fail => result

theorem Result.prepend_nil (result : Result) : result.prepend [] = result := by
  obtain ⟨status, command, parser⟩ := result
  cases status <;> rfl

theorem Result.prepend_prepend (chain₁ chain₂ : List Command) (result : Result) :
    (result.prepend chain₂).prepend chain₁ = result.prepend (chain₁ ++ chain₂) := by
  obtain ⟨status, command, parser⟩ := result
  cases status with
  | success => simp [Result.prepend]
  | fail => rfl

/-- The result of a line, from its segments; `none` when parsing does not end. -/
def parse : Parser → List Segment → Option Result
  | p, [] => some ⟨.success, [], p⟩
  | p, seg :: segs =>
    if p.Blank seg then some ⟨.success, [], p⟩
    else
      match seg.command p.fed with
      | none => some ⟨.fail, [], p⟩
      | some command => if seg.ending = .word then none else (parse ⟨some command⟩ segs).map (Result.prepend [command])

end UnixSysProg.Osh
