import TaskGrid.Json.Basic

/-!
# Writing JSON

The compact form: no blanks between tokens, and escapes in strings only for quotation marks,
backslashes and control characters.
-/

namespace TaskGrid.Json

/-- The hexadecimal digit of a value below sixteen. -/
def hexLetter (n : Nat) : Char := Nat.digitChar n

/-- A character as it stands in a string. -/
def escape (c : Char) : List Char :=
  if c = '"' then ['\\', '"']
  else if c = '\\' then ['\\', '\\']
  else if c.toNat < 32 then
    ['\\', 'u', '0', '0', hexLetter (c.toNat / 16), hexLetter (c.toNat % 16)]
  else [c]

/-- A string between quotation marks. -/
def quoted (s : String) : String := String.ofList ('"' :: s.toList.flatMap escape ++ ['"'])

mutual

/-- The written form of a value. -/
def text : Json → String
  | null => "null"
  | bool true => "true"
  | bool false => "false"
  | int n => toString n
  | fraction => "null"
  | illFormed => "null"
  | str s => quoted s
  | arr items => "[" ++ ",".intercalate (texts items) ++ "]"
  | obj fields => "\x7b" ++ ",".intercalate (fieldTexts fields) ++ "\x7d"

/-- The written forms of items. -/
def texts : List Json → List String
  | [] => []
  | v :: r => text v :: texts r

/-- The written forms of fields. -/
def fieldTexts : List (String × Json) → List String
  | [] => []
  | (name, v) :: r => (quoted name ++ ":" ++ text v) :: fieldTexts r

end

end TaskGrid.Json
