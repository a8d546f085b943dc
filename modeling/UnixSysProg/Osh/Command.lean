/-
The data of the shell `osh` (`a2/osh/globals.h`, `command.h`): the operators, the states of a command and
the `Command` object that the parser fills in and the executor runs.
-/
import Mathlib.Data.List.TakeWhile

namespace UnixSysProg.Osh

/-- A `std::string`, by its characters. -/
abbrev Word := List Char

/-- `status_success` and `status_fail`. -/
inductive Status
  | success
  | fail
  deriving DecidableEq, Repr

/-! ## Operators -/

def redirStdout : Word := ['>']
def redirStdin : Word := ['<']
def appendStdout : Word := ['>', '>']
def redirPipe : Word := ['|']
def execAny : Word := [';']
def execOnsuccess : Word := ['&', '&']
def execOnfailure : Word := ['|', '|']

/-! ## Commands -/

inductive InputMode
  | stdin
  | file
  | pipe
  deriving DecidableEq, Repr

inductive OutputMode
  | stdout
  | fileNew
  | append
  | pipe
  deriving DecidableEq, Repr

inductive RunNextCommandSymbol
  | redirStdout
  | redirStdin
  | appendStdout
  | redirPipe
  | execAny
  | execOnsuccess
  | execOnfailure
  | none
  deriving DecidableEq, Repr

inductive ParseState
  | blank
  | invalid
  | needToken
  | newCommand
  | inPath
  | outPath
  | pipesym
  | parsed
  | executing
  | conditionalExec
  deriving DecidableEq, Repr

def invalidPid : Int := 1
def invalidFid : Int := 1

/-- A `Command` without its `next`, with the values that the constructor gives its fields. `argv` is the
null pointer, or the C strings in front of the terminating null pointer. -/
structure Command where
  parseState : ParseState := .newCommand
  argv : Option (List Word) := none
  inputMode : InputMode := .stdin
  inputFid : Int := invalidFid
  inputFilename : Word := []
  outputMode : OutputMode := .stdout
  outputFid : Int := invalidFid
  outputFilename : Word := []
  runNextCommand : RunNextCommandSymbol := .none
  pid : Int := invalidPid
  rval : Int := -1
  deriving DecidableEq, Repr

namespace Command

variable (c : Command)

/-- `set_runNextCommand`, of a string: one that is no operator changes nothing. -/
def setRunNextCommand (symbol : Word) : Command :=
  if symbol = redirStdout then { c with runNextCommand := .redirStdout }
  else if symbol = redirStdin then { c with runNextCommand := .redirStdin }
  else if symbol = redirPipe then { c with runNextCommand := .redirPipe }
  else if symbol = appendStdout then { c with runNextCommand := .appendStdout }
  else if symbol = execAny then { c with runNextCommand := .execAny }
  else if symbol = execOnfailure then { c with runNextCommand := .execOnfailure }
  else if symbol = execOnsuccess then { c with runNextCommand := .execOnsuccess }
  else c

/-- `get_executable`, which reads through `argv`: nothing when `argv` is the null pointer. -/
def getExecutable : Option Word :=
  match c.argv with
  | none => none
  | some [] => some []
  | some (word :: _) => some word

end Command

/-- The C string that `strncpy` makes of a string with the string's length: it ends at the first NUL. -/
def strncpy (token : Word) : Word := token.takeWhile (· ≠ '\x00')

end UnixSysProg.Osh
