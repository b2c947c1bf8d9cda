import Mathlib.Data.List.Basic

/-!
# Numbers in positional notation

Reading a number from its digits as the parsers of machine integers do: digit by digit, up to the
first letter that is no digit or the first value out of bounds. `readDigits_toDigits` is the round
trip with `Nat.toDigits`. `readDigits_toDigits_eq_iff` says what becomes of digits that are read in
a larger base than they were written in: the number comes back if and only if it has one digit.
-/

set_option autoImplicit false
set_option relaxedAutoImplicit false

namespace Fluidic.Library

/-- Why a text is no machine integer. -/
inductive ParseIntError
  | empty
  | invalidDigit
  | posOverflow
  deriving DecidableEq, Repr

/-- The text of an error. -/
def ParseIntError.display : ParseIntError → String
  | .empty => "cannot parse integer from empty string"
  | .invalidDigit => "invalid digit found in string"
  | .posOverflow => "number too large to fit in target type"

/-- The number below a bound that the remaining digits lead to from a value. -/
def readDigits (digit : Char → Option ℕ) (base bound : ℕ) :
    ℕ → List Char → Except ParseIntError ℕ
  | value, [] => .ok value
  | value, letter :: rest =>
    match digit letter with
    | none => .error .invalidDigit
    | some read =>
      if base * value + read < bound then readDigits digit base bound (base * value + read) rest
      else .error .posOverflow

/-- The number below a bound that a text spells: at least one digit, behind an optional plus sign.
-/
def parseRadix (digit : Char → Option ℕ) (base bound : ℕ) : List Char → Except ParseIntError ℕ
  | [] => .error .empty
  | '+' :: rest =>
    if rest = [] then .error .invalidDigit else readDigits digit base bound 0 rest
  | letters => readDigits digit base bound 0 letters

section Digits

variable {digit : Char → Option ℕ} {base bound : ℕ}

/-- The last digit is read after the others. Assumes: the other digits are read, and the last one is
a digit. -/
theorem readDigits_concat {start value : ℕ} {letters : List Char} {letter : Char} {last : ℕ}
    (hletters : readDigits digit base bound start letters = .ok value)
    (hletter : digit letter = some last) :
    readDigits digit base bound start (letters ++ [letter]) =
      if base * value + last < bound then .ok (base * value + last) else .error .posOverflow := by
  induction letters generalizing start with
  | nil =>
    obtain rfl := Except.ok.inj hletters
    simp only [List.nil_append, readDigits, hletter]
  | cons first rest ih =>
    rw [List.cons_append, readDigits]
    rw [readDigits] at hletters
    cases hfirst : digit first with
    | none =>
      rw [hfirst] at hletters
      cases hletters
    | some read =>
      rw [hfirst] at hletters
      dsimp only at hletters ⊢
      by_cases hfits : base * start + read < bound
      · rw [if_pos hfits] at hletters ⊢
        exact ih hletters
      · rw [if_neg hfits] at hletters
        cases hletters

/-- An error in the first digits is an error of the whole. Assumes: reading the first digits fails
with the error. -/
theorem readDigits_append_error {start : ℕ} {letters rest : List Char} {error : ParseIntError}
    (hletters : readDigits digit base bound start letters = .error error) :
    readDigits digit base bound start (letters ++ rest) = .error error := by
  induction letters generalizing start with
  | nil => cases hletters
  | cons first others ih =>
    rw [List.cons_append, readDigits]
    rw [readDigits] at hletters
    cases hfirst : digit first with
    | none =>
      rw [hfirst] at hletters
      exact hletters
    | some read =>
      rw [hfirst] at hletters
      dsimp only at hletters ⊢
      split_ifs at hletters ⊢ with hfits
      · exact ih hletters
      · exact hletters

/-- The digits of a number are read back. Assumes: the letters of the digits below the base are
read, and the number is below the bound. -/
theorem readDigits_toDigits (hbase : 1 < base)
    (hdigit : ∀ read < base, digit read.digitChar = some read) {value : ℕ} (hfits : value < bound) :
    readDigits digit base bound 0 (Nat.toDigits base value) = .ok value := by
  induction value using Nat.strongRecOn with
  | ind value ih =>
    rw [Nat.toDigits_eq_if hbase]
    split_ifs with hsmall
    · simp only [readDigits, hdigit value hsmall, Nat.mul_zero, Nat.zero_add, if_pos hfits]
    · have hless : value / base < value := Nat.div_lt_self (by omega) hbase
      have hlast : value % base < base := Nat.mod_lt value (by omega)
      rw [readDigits_concat (ih _ hless (by omega)) (hdigit _ hlast), Nat.div_add_mod,
        if_pos hfits]

/-- Digits that are read in a base not below the one they were written in give a number not below
the one written, and give it back only when it has one digit. Assumes: the letters of the digits
below the smaller base are read, the bases, and that the digits are read. -/
theorem le_of_readDigits_toDigits {written : ℕ} (hwritten : 1 < written) (hless : written < base)
    (hdigit : ∀ read < written, digit read.digitChar = some read) {value result : ℕ}
    (hread : readDigits digit base bound 0 (Nat.toDigits written value) = .ok result) :
    value ≤ result ∧ (result = value → value < written) := by
  induction value using Nat.strongRecOn generalizing result with
  | ind value ih =>
    rw [Nat.toDigits_eq_if hwritten] at hread
    split_ifs at hread with hsmall
    · simp only [readDigits, hdigit value hsmall, Nat.mul_zero, Nat.zero_add] at hread
      split_ifs at hread
      exact ⟨Nat.le_of_eq (Except.ok.inj hread), fun _ ↦ hsmall⟩
    · have hsmaller : value / written < value := Nat.div_lt_self (by omega) hwritten
      have hlast : value % written < written := Nat.mod_lt value (by omega)
      cases hhigh : readDigits digit base bound 0 (Nat.toDigits written (value / written)) with
      | error error =>
        rw [readDigits_append_error hhigh] at hread
        cases hread
      | ok high =>
        rw [readDigits_concat hhigh (hdigit _ hlast)] at hread
        split_ifs at hread
        obtain rfl := Except.ok.inj hread
        have hle := (ih _ hsmaller hhigh).1
        have hquotient : 1 ≤ value / written := Nat.div_pos (by omega) (by omega)
        have hvalue := Nat.div_add_mod value written
        have hscaled : written * (value / written) + (value / written) ≤ base * high := by
          calc written * (value / written) + value / written
              = (written + 1) * (value / written) := by rw [Nat.add_mul, Nat.one_mul]
            _ ≤ base * high := Nat.mul_le_mul hless hle
        omega

/-- Digits that are read in a larger base than they were written in give the number back if and only
if it has one digit. Assumes: the letters of the digits below the smaller base are read, and the
number is below the bound. -/
theorem readDigits_toDigits_eq_iff {written : ℕ} (hwritten : 1 < written) (hless : written < base)
    (hdigit : ∀ read < written, digit read.digitChar = some read) {value : ℕ}
    (hfits : value < bound) :
    readDigits digit base bound 0 (Nat.toDigits written value) = .ok value ↔ value < written := by
  constructor
  · exact fun hread ↦ (le_of_readDigits_toDigits hwritten hless hdigit hread).2 rfl
  · intro hsmall
    rw [Nat.toDigits_of_lt_base hsmall]
    simp only [readDigits, hdigit value hsmall, Nat.mul_zero, Nat.zero_add, if_pos hfits]

end Digits

end Fluidic.Library
