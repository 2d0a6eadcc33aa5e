import TaskGrid.Json.Basic

/-!
# Reading JSON

A strict reader: no trailing commas, no comments, no leading zeros, no control characters in
strings, nothing but blanks after the value.  `Json.scan?` reads the form alone and keeps the
tokens that denote nothing; `Json.read?` also asks that every token denotes a value and that
arrays and objects nest at most `Json.depthLimit` deep.
-/

namespace TaskGrid.Json

/-! ## Tokens -/

/-- Whether a character may stand between tokens. -/
def isGap (c : Char) : Bool := c == ' ' || c == '\n' || c == '\t' || c == '\r'

/-- The text from its first token on. -/
def skipGaps (s : List Char) : List Char := s.dropWhile isGap

/-- Whether a character is a decimal digit. -/
def isDigit (c : Char) : Bool := '0' ≤ c && c ≤ '9'

/-- The number written by decimal digits. -/
def decimal (s : List Char) : Nat := s.foldl (fun n c => 10 * n + (c.toNat - '0'.toNat)) 0

/-- The least number that is closer to `2 ^ 1024` than to any number of a machine. -/
def magnitudeLimit : Nat := Nat.pow 2 1024 - Nat.pow 2 970

/-- Whether `mantissa * 10 ^ exponent` is below the limit of machine numbers. -/
def withinMagnitude (mantissa : Nat) (exponent : Int) : Bool :=
  let digits : Int := (Nat.toDigits 10 mantissa).length
  if mantissa = 0 then true
  else if 320 < digits + exponent then false
  else if digits + exponent < 300 then true
  else match exponent with
    | .ofNat e => mantissa * Nat.pow 10 e < magnitudeLimit
    | .negSucc e => mantissa < magnitudeLimit * Nat.pow 10 (e + 1)

/-- The digits of a fraction and what follows; no digits where there is no fraction. -/
def fractionPart? : List Char → Option (List Char × List Char)
  | '.' :: r => if (r.takeWhile isDigit).isEmpty then none else some (r.span isDigit)
  | s => some ([], s)

/-- The exponent and what follows; nothing where there is no exponent. -/
def exponentPart? (s : List Char) : Option (Option Int × List Char) :=
  match s with
  | c :: r =>
    if c = 'e' ∨ c = 'E' then
      let (negative, r) := match r with
        | '-' :: r => (true, r)
        | '+' :: r => (false, r)
        | r => (false, r)
      let digits := r.takeWhile isDigit
      if digits.isEmpty then none
      else
        let n : Int := decimal digits
        some (some (if negative then -n else n), r.dropWhile isDigit)
    else some (none, s)
  | [] => some (none, [])

/-- Reads a number. -/
def number? (s : List Char) : Option (Json × List Char) := do
  let (negative, s) := match s with
    | '-' :: r => (true, r)
    | s => (false, s)
  let whole := s.takeWhile isDigit
  if whole.isEmpty || (whole.head? = some '0' && 1 < whole.length) then none
  let (places, s) ← fractionPart? (s.dropWhile isDigit)
  let (exponent, s) ← exponentPart? s
  let mantissa := decimal (whole ++ places)
  let value :=
    if !withinMagnitude mantissa (exponent.getD 0 - places.length) then illFormed
    else if places.isEmpty && exponent.isNone && !(negative && mantissa = 0) then
      int (if negative then -(mantissa : Int) else mantissa)
    else fraction
  some (value, s)

/-- The value of a hexadecimal digit. -/
def hexValue? (c : Char) : Option Nat :=
  if '0' ≤ c ∧ c ≤ '9' then some (c.toNat - '0'.toNat)
  else if 'a' ≤ c ∧ c ≤ 'f' then some (c.toNat - 'a'.toNat + 10)
  else if 'A' ≤ c ∧ c ≤ 'F' then some (c.toNat - 'A'.toNat + 10)
  else none

/-- The number of four hexadecimal digits. -/
def hexNumber? (a b c d : Char) : Option Nat := do
  some (4096 * (← hexValue? a) + 256 * (← hexValue? b) + 16 * (← hexValue? c) + (← hexValue? d))

/-- Whether a number is the first half of a surrogate pair. -/
def isHighHalf (n : Nat) : Bool := 0xD800 ≤ n && n ≤ 0xDBFF

/-- Whether a number is the second half of a surrogate pair. -/
def isLowHalf (n : Nat) : Bool := 0xDC00 ≤ n && n ≤ 0xDFFF

/-- The character of an escape of one letter. -/
def escaped? : Char → Option Char
  | '"' => some '"'
  | '\\' => some '\\'
  | '/' => some '/'
  | 'b' => some '\x08'
  | 'f' => some '\x0c'
  | 'n' => some '\n'
  | 'r' => some '\r'
  | 't' => some '\t'
  | _ => none

/-- Reads the rest of a string, after the characters `done` in reverse.  The string is `none` once
half a surrogate pair was met, which `intact` records. -/
def stringRest? (done : List Char) (intact : Bool) :
    List Char → Option (Option String × List Char)
  | [] => none
  | '"' :: r => some (if intact then some (String.ofList done.reverse) else none, r)
  | '\\' :: 'u' :: a :: b :: c :: d :: '\\' :: 'u' :: a' :: b' :: c' :: d' :: r => do
    let n ← hexNumber? a b c d
    if isHighHalf n then
      let m ← hexNumber? a' b' c' d'
      if isLowHalf m then
        let joined := Char.ofNat (0x10000 + 0x400 * (n - 0xD800) + (m - 0xDC00))
        stringRest? (joined :: done) intact r
      else stringRest? done false ('\\' :: 'u' :: a' :: b' :: c' :: d' :: r)
    else
      stringRest? (Char.ofNat n :: done) (intact && !isLowHalf n)
        ('\\' :: 'u' :: a' :: b' :: c' :: d' :: r)
  | '\\' :: 'u' :: a :: b :: c :: d :: r => do
    let n ← hexNumber? a b c d
    stringRest? (Char.ofNat n :: done) (intact && !isHighHalf n && !isLowHalf n) r
  | '\\' :: c :: r => do
    let e ← escaped? c
    stringRest? (e :: done) intact r
  | c :: r => if c.toNat < 32 then none else stringRest? (c :: done) intact r
termination_by s => s.length

/-! ## Values -/

mutual

/-- Reads a value from a text of fewer than `fuel` characters. -/
def value? : Nat → List Char → Option (Json × List Char)
  | 0, _ => none
  | fuel + 1, s =>
    match skipGaps s with
    | 'n' :: 'u' :: 'l' :: 'l' :: r => some (null, r)
    | 't' :: 'r' :: 'u' :: 'e' :: r => some (bool true, r)
    | 'f' :: 'a' :: 'l' :: 's' :: 'e' :: r => some (bool false, r)
    | '"' :: r => (stringRest? [] true r).map fun (s, r) => (s.elim illFormed str, r)
    | '[' :: r =>
      match skipGaps r with
      | ']' :: r => some (arr [], r)
      | r => (items? fuel r).map fun (l, r) => (arr l, r)
    | '\x7b' :: r =>
      match skipGaps r with
      | '\x7d' :: r => some (obj [], r)
      | r => (fields? fuel r).map fun (l, r) => (l.elim illFormed obj, r)
    | s => number? s

/-- Reads the items of an array up to its end. -/
def items? : Nat → List Char → Option (List Json × List Char)
  | 0, _ => none
  | fuel + 1, s => do
    let (v, r) ← value? fuel s
    match skipGaps r with
    | ',' :: r =>
      let (l, r) ← items? fuel r
      some (v :: l, r)
    | ']' :: r => some ([v], r)
    | _ => none

/-- Reads the fields of an object up to its end; `none` in place of the fields if a name denotes
nothing. -/
def fields? : Nat → List Char → Option (Option (List (String × Json)) × List Char)
  | 0, _ => none
  | fuel + 1, s => do
    let '"' :: r := skipGaps s | none
    let (name, r) ← stringRest? [] true r
    let ':' :: r := skipGaps r | none
    let (v, r) ← value? fuel r
    match skipGaps r with
    | ',' :: r =>
      let (l, r) ← fields? fuel r
      some (name.bind fun n => l.map ((n, v) :: ·), r)
    | '\x7d' :: r => some (name.map fun n => [(n, v)], r)
    | _ => none

end

/-- Reads a whole text for its form. -/
def scan? (text : String) : Option Json := do
  let s := text.toList
  let (v, r) ← value? (s.length + 1) s
  if (skipGaps r).isEmpty then some v else none

/-! ## Sound values -/

/-- How deep arrays and objects may nest. -/
def depthLimit : Nat := 127

mutual

/-- Whether every token denotes a value and nothing nests deeper than `depth`. -/
def isSound : Nat → Json → Bool
  | _, null => true
  | _, bool _ => true
  | _, int _ => true
  | _, fraction => true
  | _, illFormed => false
  | _, str _ => true
  | 0, arr _ => false
  | 0, obj _ => false
  | depth + 1, arr items => areSound depth items
  | depth + 1, obj fields => fieldsSound depth fields

/-- Whether every item is sound. -/
def areSound (depth : Nat) : List Json → Bool
  | [] => true
  | v :: r => isSound depth v && areSound depth r

/-- Whether the value of every field is sound. -/
def fieldsSound (depth : Nat) : List (String × Json) → Bool
  | [] => true
  | (_, v) :: r => isSound depth v && fieldsSound depth r

end

/-! ## Distinct names -/

mutual

/-- The value with only the last of the fields of one name in every object. -/
def distinct : Json → Json
  | arr items => arr (distinctItems items)
  | obj fields => obj (distinctFields fields)
  | j => j

/-- The items, each with distinct names. -/
def distinctItems : List Json → List Json
  | [] => []
  | v :: r => distinct v :: distinctItems r

/-- The last of the fields of each name. -/
def distinctFields : List (String × Json) → List (String × Json)
  | [] => []
  | (name, v) :: r =>
    if (lastNamed? name r).isSome then distinctFields r else (name, distinct v) :: distinctFields r

end

/-- Reads a whole text as a sound value with distinct names. -/
def read? (text : String) : Option Json := do
  let v ← scan? text
  if isSound depthLimit v then some (distinct v) else none

end TaskGrid.Json
