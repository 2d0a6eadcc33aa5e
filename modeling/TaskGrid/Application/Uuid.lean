/-!
# Universally unique identifiers

A 128-bit number, written as 32 lower case hexadecimal digits in groups of 8, 4, 4, 4 and 12
joined by hyphens.  Reading also takes the digits without hyphens, and the hyphenated form
between braces or after `urn:uuid:`, in either case of the digits.
-/

namespace TaskGrid

/-- A 128-bit identifier. -/
@[ext] structure Uuid where
  /-- The identifier as a number. -/
  value : Nat
  /-- The number fits in 128 bits. -/
  bounded : value < Nat.pow 2 128
  deriving DecidableEq

namespace Uuid

/-- The digit of a value below sixteen. -/
def hexDigit (n : Nat) : Char := (Nat.digitChar n)

/-- The value of a hexadecimal digit, of either case. -/
def hexValue? (c : Char) : Option Nat :=
  if '0' ≤ c ∧ c ≤ '9' then some (c.toNat - '0'.toNat)
  else if 'a' ≤ c ∧ c ≤ 'f' then some (c.toNat - 'a'.toNat + 10)
  else if 'A' ≤ c ∧ c ≤ 'F' then some (c.toNat - 'A'.toNat + 10)
  else none

/-- The last `k` hexadecimal digits of `n`, most significant first. -/
def hexDigits : Nat → Nat → List Char
  | 0, _ => []
  | k + 1, n => hexDigits k (n / 16) ++ [hexDigit (n % 16)]

/-- The number that a text of hexadecimal digits continues from `n`. -/
def readHex (n : Nat) : List Char → Option Nat
  | [] => some n
  | c :: r => (hexValue? c).bind fun d => readHex (16 * n + d) r

/-- The hyphenated form of 32 digits. -/
def hyphenate (d : List Char) : List Char :=
  d.take 8 ++ '-' :: (d.drop 8).take 4 ++ '-' :: (d.drop 12).take 4 ++ '-' :: (d.drop 16).take 4 ++
    '-' :: d.drop 20

/-- The digits of a text with hyphens exactly where the hyphenated form has them. -/
def unhyphenate? (s : List Char) : Option (List Char) :=
  let d := s.take 8 ++ (s.drop 9).take 4 ++ (s.drop 14).take 4 ++ (s.drop 19).take 4 ++ s.drop 24
  if hyphenate d = s then some d else none

/-- The identifier of exactly 32 digits. -/
def ofDigits? (d : List Char) : Option Uuid :=
  if d.length = 32 then
    (readHex 0 d).bind fun n => if h : n < Nat.pow 2 128 then some ⟨n, h⟩ else none
  else none

/-- The hyphenated text. -/
def text (u : Uuid) : String := String.ofList (hyphenate (hexDigits 32 u.value))

/-- Reads an identifier in any of its four forms. -/
def read? (s : String) : Option Uuid :=
  let cs := s.toList
  if cs.length = 32 then ofDigits? cs
  else if cs.length = 36 then (unhyphenate? cs).bind ofDigits?
  else if cs.length = 38 ∧ cs.head? = some '\x7b' ∧ cs.getLast? = some '\x7d' then
    (unhyphenate? (cs.drop 1).dropLast).bind ofDigits?
  else if cs.length = 45 ∧ cs.take 9 = "urn:uuid:".toList then
    (unhyphenate? (cs.drop 9)).bind ofDigits?
  else none

end Uuid

end TaskGrid
