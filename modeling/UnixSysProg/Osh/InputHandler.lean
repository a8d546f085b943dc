/-
The input of `osh` (`a2/osh/utils.h`, `InputHandler.cpp`): a line is cut into tokens at its blanks, and the
parser peeks at and takes one trimmed token after the other.
-/
import UnixSysProg.Lib.Runs
import UnixSysProg.Osh.Command
import Mathlib.Data.List.DropRight

namespace UnixSysProg.Osh

open UnixSysProg.Lib

/-! ## Strings -/

/-- `isspace`, in the locale of a C program. -/
def isspace (c : Char) : Bool := c ∈ [' ', '\t', '\n', '\x0b', '\x0c', '\r']

def ltrim (s : Word) : Word := s.dropWhile isspace

def rtrim (s : Word) : Word := s.rdropWhile isspace

def trim (s : Word) : Word := ltrim (rtrim s)

/-- A position in a string, with `none` for `npos`. -/
abbrev Pos := Option Nat

/-- The first position from `pos` on whose character satisfies `p`. -/
def findFirst (p : Char → Bool) (str : Word) : Pos → Pos
  | none => none
  | some pos => ((str.drop pos).findIdx? p).map (pos + ·)

def findFirstOf (str delimiters : Word) (pos : Pos) : Pos := findFirst (· ∈ delimiters) str pos

def findFirstNotOf (str delimiters : Word) (pos : Pos) : Pos := findFirst (· ∉ delimiters) str pos

/-- `str.substr(lastPos, pos - lastPos)`, to the end of the string when `pos` is `npos`, since no string has
as many characters as are left up to `npos`; an exception when `lastPos` is `npos`. -/
def substr (str : Word) : Pos → Pos → Option Word
  | none, _ => none
  | some lastPos, none => some (str.drop lastPos)
  | some lastPos, some pos => some ((str.drop lastPos).take (pos - lastPos))

/-- The loop of `TokenizeString`; `none` when it has not ended after `fuel` passes, or with an exception. -/
def tokenizeLoop (str delimiters : Word) : Nat → List Word → Pos → Pos → Option (List Word)
  | 0, _, _, _ => none
  | fuel + 1, tokens, lastPos, pos =>
    if pos.isSome || lastPos.isSome then
      match substr str lastPos pos with
      | none => none
      | some token =>
        let lastPos := findFirstNotOf str delimiters pos
        let pos := findFirstOf str delimiters lastPos
        tokenizeLoop str delimiters fuel (tokens ++ [token]) lastPos pos
    else some tokens

def tokenizeString (str : Word) (tokens : List Word) (delimiters : Word) : Option (List Word) :=
  let lastPos := findFirstNotOf str delimiters (some 0)
  let pos := findFirstOf str delimiters lastPos
  tokenizeLoop str delimiters (str.length + 1) tokens lastPos pos

/-! ## Tokens are the runs between delimiters -/

variable {p : Char → Bool} {str delimiters : Word} {pos : Pos}

/-- The characters from a position on. -/
def Pos.rest (str : Word) : Pos → Word
  | none => []
  | some pos => str.drop pos

theorem rest_findFirst (p : Char → Bool) (str : Word) (pos : Pos) :
    (findFirst p str pos).rest str = (pos.rest str).dropWhile fun c => !p c := by
  cases pos with
  | none => rfl
  | some pos =>
    simp only [findFirst, Pos.rest]
    cases hfind : (str.drop pos).findIdx? p with
    | none =>
      have hnone := List.findIdx?_eq_none_iff.1 hfind
      exact (List.dropWhile_eq_nil_iff.2 fun c hc => by simp [hnone c hc]).symm
    | some i =>
      have hi := (List.findIdx?_eq_some_iff_findIdx_eq.1 hfind).2
      rw [List.dropWhile_eq_drop_findIdx_not]
      simp [hi, List.drop_drop]

theorem substr_findFirst (p : Char → Bool) (str : Word) (lastPos : Nat) :
    substr str (some lastPos) (findFirst p str (some lastPos)) =
      some ((str.drop lastPos).takeWhile fun c => !p c) := by
  simp only [findFirst]
  cases hfind : (str.drop lastPos).findIdx? p with
  | none =>
    have hnone := List.findIdx?_eq_none_iff.1 hfind
    exact congrArg some (List.takeWhile_eq_self_iff.2 fun c hc => by simp [hnone c hc]).symm
  | some i =>
    have hi := (List.findIdx?_eq_some_iff_findIdx_eq.1 hfind).2
    rw [List.takeWhile_eq_take_findIdx_not]
    simp [substr, hi]

/-- A position that is found is that of a character with the property. -/
theorem head_of_findFirst {i : Nat} (h : findFirst p str pos = some i) :
    ∃ c rest, str.drop i = c :: rest ∧ p c = true := by
  cases pos with
  | none => cases h
  | some pos =>
    obtain ⟨j, hj, rfl⟩ := Option.map_eq_some_iff.1 h
    obtain ⟨hlt, hp, _⟩ := List.findIdx?_eq_some_iff_getElem.1 hj
    have hlen : pos + j < str.length := by
      rw [List.length_drop] at hlt
      omega
    refine ⟨_, _, List.drop_eq_getElem_cons hlen, ?_⟩
    simpa using hp

theorem tokenizeLoop_eq (str delimiters : Word) : ∀ (fuel : Nat) (tokens : List Word) (pos : Pos),
    (pos.rest str).length < fuel →
    tokenizeLoop str delimiters fuel tokens (findFirstNotOf str delimiters pos)
      (findFirstOf str delimiters (findFirstNotOf str delimiters pos)) =
    some (tokens ++ runs (· ∈ delimiters) (pos.rest str)) := by
  intro fuel
  induction fuel with
  | zero => intro _ _ h; omega
  | succ fuel ih =>
    intro tokens pos hlen
    have hskip : (findFirstNotOf str delimiters pos).rest str = (pos.rest str).dropWhile (· ∈ delimiters) := by
      simpa [findFirstNotOf] using rest_findFirst (fun c => decide (c ∉ delimiters)) str pos
    rw [← runs_dropWhile, ← hskip]
    cases hlast : findFirstNotOf str delimiters pos with
    | none => simp [tokenizeLoop, findFirstOf, findFirst, Pos.rest]
    | some lastPos =>
      obtain ⟨c, rest, hdrop, hc⟩ := head_of_findFirst hlast
      have hin : decide (c ∈ delimiters) = false := by simpa using hc
      have hle : (str.drop lastPos).length ≤ (pos.rest str).length := by
        rw [hlast] at hskip
        rw [show str.drop lastPos = _ from hskip]
        exact (List.dropWhile_sublist _).length_le
      have hnext : (findFirstOf str delimiters (some lastPos)).rest str =
          (str.drop lastPos).dropWhile fun c => !decide (c ∈ delimiters) :=
        rest_findFirst (fun c => decide (c ∈ delimiters)) str (some lastPos)
      have hshort : ((findFirstOf str delimiters (some lastPos)).rest str).length < fuel := by
        have hrest := (List.dropWhile_sublist (l := rest) fun c => !decide (c ∈ delimiters)).length_le
        rw [hnext, hdrop, List.dropWhile_cons_of_pos (by simp [hin])]
        rw [hdrop, List.length_cons] at hle
        omega
      have hruns : runs (fun c => decide (c ∈ delimiters)) (str.drop lastPos) = _ :=
        runs_eq_cons (by rw [hdrop]; simp) (by simpa [hdrop] using hin)
      have htoken : substr str (some lastPos) (findFirstOf str delimiters (some lastPos)) =
          some ((str.drop lastPos).takeWhile fun c => !decide (c ∈ delimiters)) := substr_findFirst _ _ _
      rw [tokenizeLoop, if_pos (by simp), htoken]
      dsimp only
      rw [ih _ _ hshort, hnext, Pos.rest, hruns, List.append_assoc, List.singleton_append]

theorem tokenizeString_eq (str : Word) (tokens : List Word) (delimiters : Word) :
    tokenizeString str tokens delimiters = some (tokens ++ runs (· ∈ delimiters) str) :=
  tokenizeLoop_eq str delimiters _ tokens (some 0) (Nat.lt_succ_self _)

/-- For every string and every set of delimiters `TokenizeString` ends, without an exception, and appends
the characters that are not delimiters in their order, cut into words; and it appends these words exactly
if they are not empty, free of delimiters, and the string is made of them with delimiters in front, behind,
and between any two of them at least one. -/
theorem tokenizeString_exact (str delimiters : Word) (tokens : List Word) :
    (∃ new, tokenizeString str tokens delimiters = some (tokens ++ new) ∧
      new.flatten = str.filter fun c => c ∉ delimiters) ∧
    ∀ new, tokenizeString str tokens delimiters = some (tokens ++ new) ↔
      ∃ lead gaps, Spaced (· ∈ delimiters) new lead gaps ∧ str = joined lead new gaps := by
  rw [tokenizeString_eq]
  constructor
  · refine ⟨_, rfl, ?_⟩
    rw [flatten_runs]
    exact List.filter_congr fun c _ => by simp
  · intro new
    rw [← runs_eq_iff, Option.some_inj, List.append_cancel_left_eq]

/-! ## The input handler -/

/-- An `InputHandler`, by the tokens from `tokenIndex` on. -/
structure InputHandler where
  tokens : List Word

namespace InputHandler

/-- `Tokenize`, of the line in the buffer. -/
def tokenize (buffer : Word) : Option InputHandler := (tokenizeString buffer [] [' ']).map (⟨·⟩)

variable (h : InputHandler)

def isEndOfLine : Bool := h.tokens.isEmpty

def getNextToken : Status × Word × InputHandler :=
  match h.tokens with
  | [] => (.fail, [], h)
  | temp :: tokens => (.success, trim temp, ⟨tokens⟩)

def peekNextToken : Status × Word :=
  match h.tokens with
  | [] => (.fail, [])
  | temp :: _ => (.success, trim temp)

@[simp] theorem getNextToken_nil : (⟨[]⟩ : InputHandler).getNextToken = (.fail, [], ⟨[]⟩) := rfl

@[simp] theorem getNextToken_cons (temp : Word) (tokens : List Word) :
    (⟨temp :: tokens⟩ : InputHandler).getNextToken = (.success, trim temp, ⟨tokens⟩) := rfl

@[simp] theorem peekNextToken_nil : (⟨[]⟩ : InputHandler).peekNextToken = (.fail, []) := rfl

@[simp] theorem peekNextToken_cons (temp : Word) (tokens : List Word) :
    (⟨temp :: tokens⟩ : InputHandler).peekNextToken = (.success, trim temp) := rfl

theorem tokenize_eq (buffer : Word) : tokenize buffer = some ⟨runs (· ∈ [' ']) buffer⟩ := by
  rw [tokenize, tokenizeString_eq, List.nil_append, Option.map_some]

end InputHandler

end UnixSysProg.Osh
