/-
Numbers and lines of a text file. A number is written with `%d` and read the way `strtol` does it: white space,
a sign, and as many digits as there are. Lines are read with `getline`, of which the last one need not be
ended. What is written is read again, whatever follows it.
-/
import Mathlib.Algebra.Ring.Int.Defs
import Mathlib.Data.List.Forall2
import Mathlib.Data.List.TakeWhile

namespace UnixSysProg.Lib

/-! ## Numbers -/

/-- `%d`. -/
def decimal (z : Int) : List Char := (if z < 0 then ['-'] else []) ++ Nat.toDigits 10 z.natAbs

/-- `%0wd` of a number that is not negative. -/
def padded (w n : Nat) : List Char := List.replicate (w - (Nat.toDigits 10 n).length) '0' ++ Nat.toDigits 10 n

/-- `isspace`. -/
def isSpace (c : Char) : Bool := c.toNat = 32 || (9 ≤ c.toNat && c.toNat ≤ 13)

/-- The number that the digits at the start of a text are, 0 if there are none, and the rest of the text. -/
def scanNat (s : List Char) : Nat × List Char :=
  (Nat.ofDigitChars 10 (s.takeWhile Char.isDigit) 0, s.dropWhile Char.isDigit)

/-- The same with a sign, after white space. -/
def scanInt (s : List Char) : Int × List Char :=
  match s.dropWhile isSpace with
  | [] => (0, [])
  | c :: s =>
    if c = '-' then (-((scanNat s).1 : Int), (scanNat s).2)
    else if c = '+' then ((scanNat s).1, (scanNat s).2)
    else ((scanNat (c :: s)).1, (scanNat (c :: s)).2)

/-- No digit stands at the start of a text. -/
def DigitFree (s : List Char) : Prop := ∀ c ∈ s.head?, c.isDigit = false

theorem digitFree_nil : DigitFree [] := by simp [DigitFree]

theorem digitFree_cons {c : Char} {s : List Char} : DigitFree (c :: s) ↔ c.isDigit = false := by simp [DigitFree]

theorem scanNat_digits {ds : List Char} (hds : ∀ c ∈ ds, c.isDigit = true) {rest : List Char} (hrest : DigitFree rest) :
    scanNat (ds ++ rest) = (Nat.ofDigitChars 10 ds 0, rest) := by
  have htake : rest.takeWhile Char.isDigit = [] := by
    cases rest with
    | nil => rfl
    | cons c s => exact List.takeWhile_cons_of_neg (by simpa using digitFree_cons.1 hrest)
  have hdrop : rest.dropWhile Char.isDigit = rest := by
    cases rest with
    | nil => rfl
    | cons c s => exact List.dropWhile_cons_of_neg (by simpa using digitFree_cons.1 hrest)
  unfold scanNat
  rw [List.takeWhile_append_of_pos hds, List.dropWhile_append_of_pos hds, htake, hdrop, List.append_nil]

/-- A digit is neither white space nor a sign. -/
theorem isDigit_plain {c : Char} (h : c.isDigit = true) : isSpace c = false ∧ c ≠ '-' ∧ c ≠ '+' := by
  have hbounds : 48 ≤ c.toNat ∧ c.toNat ≤ 57 := Char.isDigit_iff_toNat.1 h
  refine ⟨by simp only [isSpace, Bool.or_eq_false_iff, Bool.and_eq_false_iff, decide_eq_false_iff_not]; omega, ?_, ?_⟩
  · rintro rfl
    exact absurd hbounds.1 (by decide)
  · rintro rfl
    exact absurd hbounds.1 (by decide)

theorem scanInt_digits {ds : List Char} (hne : ds ≠ []) (hds : ∀ c ∈ ds, c.isDigit = true) {rest : List Char}
    (hrest : DigitFree rest) : scanInt (ds ++ rest) = ((Nat.ofDigitChars 10 ds 0 : Int), rest) := by
  have hscan := scanNat_digits hds hrest
  obtain ⟨c, ds, rfl⟩ := List.exists_cons_of_ne_nil hne
  obtain ⟨hspace, hminus, hplus⟩ := isDigit_plain (hds c (List.mem_cons_self ..))
  unfold scanInt
  rw [List.cons_append] at hscan ⊢
  rw [List.dropWhile_cons_of_neg (by simpa using hspace)]
  simp only [if_neg hminus, if_neg hplus, hscan]

theorem isDigit_toDigits {n : Nat} {c : Char} (hc : c ∈ Nat.toDigits 10 n) : c.isDigit = true :=
  Nat.isDigit_of_mem_toDigits (by decide) (by decide) hc

theorem scanInt_toDigits (n : Nat) {rest : List Char} (hrest : DigitFree rest) :
    scanInt (Nat.toDigits 10 n ++ rest) = ((n : Int), rest) := by
  rw [scanInt_digits Nat.toDigits_ne_nil (fun c hc => isDigit_toDigits hc) hrest, Nat.ofDigitChars_ten_toDigits]

/-- What `%d` writes is read again, as long as no digit follows. -/
theorem scanInt_decimal (z : Int) {rest : List Char} (hrest : DigitFree rest) :
    scanInt (decimal z ++ rest) = (z, rest) := by
  unfold decimal
  by_cases hz : z < 0
  · have hminus : isSpace '-' = false := by decide
    rw [if_pos hz, List.append_assoc, List.singleton_append]
    have hscan := scanNat_digits (fun c hc => isDigit_toDigits (n := z.natAbs) hc) hrest
    rw [Nat.ofDigitChars_ten_toDigits] at hscan
    unfold scanInt
    rw [List.dropWhile_cons_of_neg (by simpa using hminus)]
    simp only [if_pos, hscan]
    exact Prod.ext (by show (-(z.natAbs : Int)) = z; omega) rfl
  · rw [if_neg hz, List.nil_append, scanInt_toDigits _ hrest]
    exact Prod.ext (by show (z.natAbs : Int) = z; omega) rfl

/-- A number of at most ten digits. -/
theorem length_decimal_le {z : Int} (hz : z.natAbs < 10000000000) : (decimal z).length ≤ 11 := by
  have hdigits := (@Nat.length_toDigits_le_iff 10 _ 10 (by decide) (by decide)).2 hz
  have hsign : (if z < 0 then ['-'] else []).length ≤ 1 := by split <;> decide
  unfold decimal
  rw [List.length_append]
  omega

theorem isDigit_padded {w n : Nat} {c : Char} (hc : c ∈ padded w n) : c.isDigit = true := by
  rcases List.mem_append.1 hc with hzero | hdigits
  · rw [List.eq_of_mem_replicate hzero]
    decide
  · exact isDigit_toDigits hdigits

/-- The zeros in front do not count. -/
theorem scanInt_padded (w n : Nat) {rest : List Char} (hrest : DigitFree rest) :
    scanInt (padded w n ++ rest) = ((n : Int), rest) := by
  have hne : padded w n ≠ [] := List.append_ne_nil_of_right_ne_nil _ Nat.toDigits_ne_nil
  rw [scanInt_digits hne (fun c hc => isDigit_padded hc) hrest, padded, Nat.ofDigitChars_append,
    Nat.ofDigitChars_replicate_zero, Nat.mul_zero, Nat.ofDigitChars_ten_toDigits]

/-- `atoi`; a number that is not an `int` leaves it undefined. -/
def atoi (s : List Char) : Option Int32 :=
  if -2 ^ 31 ≤ (scanInt s).1 ∧ (scanInt s).1 < 2 ^ 31 then some (Int32.ofInt (scanInt s).1) else none

theorem atoi_decimal {z : Int} (hz : -2 ^ 31 ≤ z ∧ z < 2 ^ 31) : atoi (decimal z) = some (Int32.ofInt z) := by
  have hscan := scanInt_decimal z digitFree_nil
  rw [List.append_nil] at hscan
  unfold atoi
  rw [hscan, if_pos hz]

/-! ## Words with numbers between them -/

/-- Each word and its number. -/
def writeFields (fields : List (List Char × List Char)) : List Char := fields.flatMap fun field => field.1 ++ field.2

/-- The numbers that stand after the words, when the text is nothing but words and numbers. -/
def readFields : List (List Char) → List Char → Option (List Int)
  | [], s => if s = [] then some [] else none
  | word :: words, s =>
    if word <+: s then (readFields words (scanInt (s.drop word.length)).2).map ((scanInt (s.drop word.length)).1 :: ·)
    else none

/-- A word that cannot be taken for more digits. -/
def Separates (word : List Char) : Prop := word ≠ [] ∧ DigitFree word

/-- The text is a number that reads as `z`. -/
def Writes (text : List Char) (z : Int) : Prop := ∀ rest, DigitFree rest → scanInt (text ++ rest) = (z, rest)

theorem writes_decimal (z : Int) : Writes (decimal z) z := fun _ hrest => scanInt_decimal z hrest

theorem writes_toDigits (n : Nat) : Writes (Nat.toDigits 10 n) n := fun _ hrest => scanInt_toDigits n hrest

theorem writes_padded (w n : Nat) : Writes (padded w n) n := fun _ hrest => scanInt_padded w n hrest

theorem digitFree_writeFields {fields : List (List Char × List Char)} (h : ∀ field ∈ fields, Separates field.1) :
    DigitFree (writeFields fields) := by
  cases fields with
  | nil => exact digitFree_nil
  | cons field fields =>
    obtain ⟨hne, hfree⟩ := h field (List.mem_cons_self ..)
    obtain ⟨c, w, hw⟩ := List.exists_cons_of_ne_nil hne
    rw [hw, digitFree_cons] at hfree
    simpa [writeFields, hw, digitFree_cons] using hfree

theorem readFields_writeFields (fields : List (List Char × List Char)) {zs : List Int}
    (h : ∀ field ∈ fields, Separates field.1) (hzs : List.Forall₂ (fun field z => Writes field.2 z) fields zs) :
    readFields (fields.map (·.1)) (writeFields fields) = some zs := by
  induction hzs with
  | nil => rfl
  | @cons field z fields zs hz _ ih =>
    obtain ⟨word, text⟩ := field
    have hrest : ∀ field ∈ fields, Separates field.1 := fun field hfield => h field (List.mem_cons_of_mem _ hfield)
    have hscan := hz _ (digitFree_writeFields hrest)
    have hwrite : writeFields ((word, text) :: fields) = word ++ (text ++ writeFields fields) := by
      simp [writeFields]
    rw [hwrite, List.map_cons, readFields, if_pos (List.prefix_append ..), List.drop_left, hscan, ih hrest,
      Option.map_some]

/-- The lines of a text as records, each with its own words. -/
def readRecords : List (List (List Char)) → List (List Char) → Option (List (List Int))
  | [], [] => some []
  | words :: formats, line :: lines =>
    match readFields words line, readRecords formats lines with
    | some row, some rows => some (row :: rows)
    | _, _ => none
  | _, _ => none

/-! ## Lines -/

/-- What a loop of `getline` reads, one line after the other. -/
def getlines : List Char → List (List Char)
  | [] => []
  | c :: s =>
    if c = '\n' then [] :: getlines s
    else
      match getlines s with
      | [] => [[c]]
      | line :: lines => (c :: line) :: lines

theorem getlines_line {line rest : List Char} (h : '\n' ∉ line) : getlines (line ++ '\n' :: rest) = line :: getlines rest := by
  induction line with
  | nil => simp [getlines]
  | cons c line ih =>
    obtain ⟨hc, hline⟩ := List.ne_and_not_mem_of_not_mem_cons h
    rw [List.cons_append, getlines, if_neg (Ne.symm hc), ih hline]

/-- Lines that were written, each with its end, are read again. -/
theorem getlines_flatMap {lines : List (List Char)} (h : ∀ line ∈ lines, '\n' ∉ line) :
    getlines (lines.flatMap fun line => line ++ ['\n']) = lines := by
  induction lines with
  | nil => rfl
  | cons line lines ih =>
    rw [List.flatMap_cons, List.append_assoc, List.singleton_append, getlines_line (h line (List.mem_cons_self ..)),
      ih fun l hl => h l (List.mem_cons_of_mem _ hl)]

theorem newline_notMem_decimal (z : Int) : '\n' ∉ decimal z := by
  intro h
  unfold decimal at h
  rcases List.mem_append.1 h with hsign | hdigits
  · split at hsign
    · exact absurd (List.mem_singleton.1 hsign) (by decide)
    · cases hsign
  · exact absurd (isDigit_toDigits hdigits) (by decide)

theorem newline_notMem_writeFields {fields : List (List Char × List Char)}
    (h : ∀ field ∈ fields, '\n' ∉ field.1 ∧ '\n' ∉ field.2) : '\n' ∉ writeFields fields := by
  intro hmem
  obtain ⟨field, hfield, hc⟩ := List.mem_flatMap.1 hmem
  rcases List.mem_append.1 hc with hword | hnumber
  · exact (h field hfield).1 hword
  · exact (h field hfield).2 hnumber

end UnixSysProg.Lib
