/-
The parser of `osh` (`a2/osh/parser.cpp`): it reads the commands of a line one after the other, their words
first, then their redirections, up to a connector or the end of the line. The last command appended to a
chain stays in the parser, where the next line finds it.
-/
import UnixSysProg.Osh.InputHandler

namespace UnixSysProg.Osh

def isEndOfCommand (token : Word) : Bool :=
  token = redirPipe || token = execAny || token = execOnsuccess || token = execOnfailure

def isTokenSymbol (token : Word) : Bool :=
  token = redirPipe || token = redirStdin || token = redirStdout || token = appendStdout || token = execAny ||
    token = execOnsuccess || token = execOnfailure

/-- A `Parser`: of `prevCommand` only the output mode is read, and nothing changes it once it is parsed. -/
structure Parser where
  prevCommand : Option Command := none

/-- What `getCommandList` returns, the commands of the chain it points to, and the parser it leaves. -/
structure Result where
  status : Status
  command : List Command
  parser : Parser

namespace Parser

variable (p : Parser)

def initCommand (command : Command) : Status × Command :=
  match p.prevCommand with
  | none => (.success, { command with inputMode := .stdin, parseState := .needToken })
  | some prev =>
    let command := if prev.outputMode = .pipe then { command with inputMode := .pipe } else command
    (.success, { command with parseState := .needToken })

/-- The loop of `initArgv` over the tokens left: the words that it takes. -/
def argvTokens (command : Command) : List Word → List Word × InputHandler × Command
  | [] => ([], ⟨[]⟩, { command with parseState := .parsed })
  | temp :: rest =>
    let token := trim temp
    if isTokenSymbol token then ([], ⟨temp :: rest⟩, command)
    else
      let (tokens, h, command) := argvTokens command rest
      (token :: tokens, h, command)

def initArgv (h : InputHandler) (command : Command) : Status × InputHandler × Command :=
  let (tokens, h, command) := argvTokens command h.tokens
  if 0 < tokens.length then (.success, h, { command with argv := some (tokens.map strncpy) })
  else
    match p.prevCommand with
    | some prev =>
      let command := if prev.outputMode = .pipe then { command with parseState := .invalid } else command
      (.success, h, { command with argv := none })
    | none => (.success, h, { command with parseState := .blank, argv := some [] })

def initInputOutput (h : InputHandler) (command : Command) : Status × InputHandler × Command :=
  let (status, token, h) := h.getNextToken
  if token = redirStdin then
    if command.inputMode ≠ .stdin then (.fail, h, { command with parseState := .invalid })
    else
      let command := { command with inputMode := .file }
      let (_, token, h) := h.getNextToken
      let command := command.setRunNextCommand token
      (status, h, { command with inputFilename := token })
  else if token = redirStdout then
    if command.outputMode ≠ .stdout then (.fail, h, { command with parseState := .invalid })
    else
      let command := { command with outputMode := .fileNew }
      let (_, token, h) := h.getNextToken
      let command := command.setRunNextCommand token
      (status, h, { command with outputFilename := token })
  else if token = appendStdout then
    if command.outputMode ≠ .stdout then (.fail, h, { command with parseState := .invalid })
    else
      let command := { command with outputMode := .append }
      let (_, token, h) := h.getNextToken
      let command := { command with outputFilename := token }
      (status, h, command.setRunNextCommand token)
  else if token = redirPipe then
    if command.outputMode ≠ .stdout then (.fail, h, { command with parseState := .invalid })
    else
      let command := { command with outputMode := .pipe }
      let command := command.setRunNextCommand token
      (status, h, { command with parseState := .parsed })
  else (status, h, command)

def initConditionalExecSymbol (h : InputHandler) (command : Command) : Status × InputHandler × Command :=
  let (_, token, h) := h.getNextToken
  let command := command.setRunNextCommand token
  (.success, h, { command with parseState := .parsed })

/-- The inner loop of `getCommandList`; `none` when it has not ended after `fuel` passes. -/
def commandLoop : Nat → InputHandler → Command → Status → Option (InputHandler × Command × Status)
  | 0, _, _, _ => none
  | fuel + 1, h, command, status =>
    if command.parseState ≠ .parsed ∧ command.parseState ≠ .invalid ∧ command.parseState ≠ .blank then
      let (status, token) := h.peekNextToken
      let (status, h, command) :=
        if status = .success ∧
            (token = redirStdout ∨ token = redirStdin ∨ token = redirPipe ∨ token = appendStdout) then
          initInputOutput h command
        else if status = .success ∧ (token = execAny ∨ token = execOnfailure ∨ token = execOnsuccess) then
          let (_, h, command) := initConditionalExecSymbol h command
          (status, h, command)
        else (status, h, command)
      if isEndOfCommand token ∨ h.peekNextToken.1 = .fail then
        let command := if command.parseState ≠ .invalid then { command with parseState := .parsed } else command
        some (h, command, status)
      else commandLoop fuel h command status
    else some (h, command, status)

/-- The loop of `getCommandList`, with the passes that `i` has left. The state that is set at the end of the
line is the one that the last command of the chain has. -/
def commandListLoop (fuel : Nat) : Nat → Parser → InputHandler → List Command → Status → Option (InputHandler × Result)
  | 0, p, h, chain, status => some (h, ⟨status, chain, p⟩)
  | i + 1, p, h, chain, status =>
    if h.isEndOfLine then some (h, ⟨status, chain, p⟩)
    else
      let (status, command) := p.initCommand {}
      let (status, h, command) :=
        if status = .success ∧ command.parseState = .needToken then p.initArgv h command else (status, h, command)
      if command.parseState = .blank then
        if p.prevCommand.any (·.outputMode = .pipe) then some (h, ⟨status, chain, p⟩)
        else commandListLoop fuel i p h chain status
      else
        match commandLoop fuel h command status with
        | none => none
        | some (h, command, status) =>
          if status = .success ∧ command.parseState = .parsed then
            commandListLoop fuel i { p with prevCommand := some command } h (chain ++ [command]) status
          else if command.parseState = .blank then commandListLoop fuel i p h chain status
          else if command.parseState = .invalid then some (h, ⟨.fail, [], p⟩)
          else commandListLoop fuel i p h chain status

/-- `getCommandList`; `none` when its inner loop has not ended after `fuel` passes. -/
def getCommandList (fuel : Nat) (h : InputHandler) : Option (InputHandler × Result) :=
  commandListLoop fuel 50 p h [] .success

/-- A line as `readInput` tokenizes it, parsed. -/
def parseLine (fuel : Nat) (buffer : Word) : Option Result :=
  match InputHandler.tokenize buffer with
  | none => none
  | some h => (p.getCommandList fuel h).map (·.2)

/-- The lines that one parser is given, one after the other. -/
def parseLines (fuel : Nat) : Parser → List Word → Option (List Result)
  | _, [] => some []
  | p, buffer :: buffers =>
    match p.parseLine fuel buffer with
    | none => none
    | some result => (parseLines fuel result.parser buffers).map (result :: ·)

end Parser

end UnixSysProg.Osh
