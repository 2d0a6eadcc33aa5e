/-!
# Unsigned decimal numerals

A numeral is one or more decimal digits, after at most one plus sign.  It is read from left to
right and the first problem met is the one reported: a character that is no digit, or the digit
at which the number passes the bound.
-/

namespace TaskGrid.Text.Numeral

/-- Why a text is not a numeral. -/
inductive Problem where
  /-- There is no text. -/
  | missing
  /-- A character is not a digit, or a sign stands alone. -/
  | invalidDigit
  /-- The number is beyond the bound. -/
  | tooLarge
  deriving DecidableEq

/-- The wording of a problem. -/
def Problem.message : Problem → String
  | .missing => "cannot parse integer from empty string"
  | .invalidDigit => "invalid digit found in string"
  | .tooLarge => "number too large to fit in target type"

/-- The value of a decimal digit. -/
def digit? (c : Char) : Option Nat :=
  if '0' ≤ c ∧ c ≤ '9' then some (c.toNat - '0'.toNat) else none

/-- Reads digits onto `n`, as long as the number is at most `bound`. -/
def readDigits (bound n : Nat) : List Char → Except Problem Nat
  | [] => .ok n
  | c :: r =>
    match digit? c with
    | none => .error .invalidDigit
    | some d => if 10 * n + d ≤ bound then readDigits bound (10 * n + d) r else .error .tooLarge

/-- Reads a whole text as a number of at most `bound`. -/
def read (bound : Nat) : List Char → Except Problem Nat
  | [] => .error .missing
  | ['+'] => .error .invalidDigit
  | '+' :: r => readDigits bound 0 r
  | s => readDigits bound 0 s

theorem readDigits_le {bound n m : Nat} {s : List Char} (hn : n ≤ bound)
    (h : readDigits bound n s = .ok m) : m ≤ bound := by
  induction s generalizing n with
  | nil =>
    simp only [readDigits, Except.ok.injEq] at h
    omega
  | cons c r ih =>
    simp only [readDigits] at h
    split at h
    · cases h
    · split at h
      · next hle => exact ih hle h
      · cases h

end TaskGrid.Text.Numeral
