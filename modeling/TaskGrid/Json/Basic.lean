/-!
# JSON values

The values that requests and answers are made of.  Only integers matter as numbers here: a number
written with a fraction or an exponent is kept as such, without its value, because no reader of
this library accepts it.  A value that has the form of JSON and yet stands for nothing, such as a
string with half a surrogate pair or a number beyond every machine number, is kept as
`illFormed`; it may only stand where values are skipped.

## Main definitions

* `Json.field?`: the value of an object's field; of two fields of one name the later counts.
* `Json.natural?`, `Json.integer?`, `Json.string?`, `Json.boolean?`, `Json.list?`: the typed
  readings, each refusing every other kind of value.
* `Json.required?`, `Json.defaulted?`, `Json.optional?`: a field that must be there, one that has
  a default, and one that may be absent or null.
* `Json.record?`, `Json.variant?`: what is read from the fields of an object, or from an array that
  holds them in order.
-/

namespace TaskGrid

/-- A JSON value. -/
inductive Json where
  | null
  | bool (value : Bool)
  | int (value : Int)
  /-- A number with a fraction or an exponent. -/
  | fraction
  /-- A token of the right form that denotes no value. -/
  | illFormed
  | str (value : String)
  | arr (items : List Json)
  | obj (fields : List (String × Json))

namespace Json

instance : Inhabited Json := ⟨null⟩

/-- The value of the last of the fields of a name. -/
def lastNamed? (name : String) : List (String × Json) → Option Json
  | [] => none
  | f :: r => (lastNamed? name r).or (if f.1 = name then some f.2 else none)

/-- The value of a field of an object. -/
def field? (name : String) : Json → Option Json
  | obj fields => lastNamed? name fields
  | _ => none

/-- Whether a value is an object. -/
def isObject : Json → Bool
  | obj _ => true
  | _ => false

/-! ## Typed readings -/

/-- An integer from zero to `bound`. -/
def natural? (bound : Nat) : Json → Option Nat
  | int (.ofNat n) => if n ≤ bound then some n else none
  | _ => none

/-- The greatest 64-bit number. -/
def wordLimit : Nat := 18446744073709551615

/-- A number of 64 bits without sign. -/
def word? : Json → Option Nat := natural? wordLimit

/-- An integer of `bits` bits with sign. -/
def integer? (bits : Nat) : Json → Option Int
  | int n =>
    if -(Nat.pow 2 (bits - 1) : Nat) ≤ n ∧ n < (Nat.pow 2 (bits - 1) : Nat) then some n else none
  | _ => none

/-- A string. -/
def string? : Json → Option String
  | str s => some s
  | _ => none

/-- A truth value. -/
def boolean? : Json → Option Bool
  | bool b => some b
  | _ => none

/-- An array whose items are all readable by `read`. -/
def list? {α : Type} (read : Json → Option α) : Json → Option (List α)
  | arr items => items.mapM read
  | _ => none

/-- Null, or a value readable by `read`. -/
def nullable? {α : Type} (read : Json → Option α) : Json → Option (Option α)
  | null => some none
  | j => (read j).map some

/-! ## Fields of an object -/

variable {α : Type}

/-- A field that must be there. -/
def required? (j : Json) (name : String) (read : Json → Option α) : Option α :=
  (j.field? name).bind read

/-- A field that has a default where it is absent. -/
def defaulted? (j : Json) (name : String) (default : α) (read : Json → Option α) : Option α :=
  match j.field? name with
  | some v => read v
  | none => some default

/-- A field that may be absent or null. -/
def optional? (j : Json) (name : String) (read : Json → Option α) : Option (Option α) :=
  j.defaulted? name none (nullable? read)

/-! ## Records -/

/-- The fields of a record in order. -/
structure Shape where
  /-- The names of the fields. -/
  names : List String
  /-- How many of the last fields an array may leave out. -/
  omittable : Nat := 0

/-- The items of an array as fields. -/
def Shape.arrange? (s : Shape) (items : List Json) : Option (List (String × Json)) :=
  if items.length ≤ s.names.length ∧ s.names.length ≤ items.length + s.omittable then
    some (s.names.zip items)
  else none

/-- A record whose fields are read by `read`. -/
def record? (s : Shape) (read : Json → Option α) : Json → Option α
  | obj fields => read (obj fields)
  | arr items => (s.arrange? items).bind fun fields => read (obj fields)
  | _ => none

/-- A record of one of several kinds.  Its first item tells the kind, and so the fields, of an
array. -/
def variant? (shape : String → Option Shape) (read : Json → Option α) : Json → Option α
  | obj fields => read (obj fields)
  | arr (str kind :: items) => (shape kind).bind fun s => record? s read (arr (str kind :: items))
  | _ => none

/-! ## Writing -/

/-- A natural number as a value. -/
def ofNat (n : Nat) : Json := int n

/-- A value that may be absent, written as null where it is. -/
def ofOption (write : α → Json) : Option α → Json
  | some a => write a
  | none => null

/-- A list as an array. -/
def ofList (write : α → Json) (l : List α) : Json := arr (l.map write)

/-- Strings as an array. -/
def ofStrings (l : List String) : Json := ofList str l

end Json

end TaskGrid
