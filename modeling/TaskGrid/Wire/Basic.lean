import TaskGrid.Json.Basic
import TaskGrid.Application.Id

/-!
# Written forms

A type with a `Wire` instance has a written form as a JSON value.  Reading takes more than
writing makes: fields with a default may be missing, fields that are not known are skipped, and an
array is read as the record that it holds the fields of.

Application identifiers are only read if they could have been written by now, so reading is given
the number of identifiers that were handed out.
-/

namespace TaskGrid

/-- A type whose values are written as JSON values. -/
class Wire (α : Type) where
  /-- The written form. -/
  encode : α → Json
  /-- Reads a written form when `known` application identifiers were handed out. -/
  decode : (known : Nat) → Json → Option α

namespace Wire

variable {α : Type} [Wire α]

/-- A field that must be there. -/
def field (known : Nat) (j : Json) (name : String) : Option α := j.required? name (decode known)

/-- A field that has a default where it is absent. -/
def fieldOr (known : Nat) (j : Json) (name : String) (default : α) : Option α :=
  j.defaulted? name default (decode known)

/-- Lists are arrays. -/
instance : Wire (List α) where
  encode := Json.ofList encode
  decode known := Json.list? (decode known)

/-- A value that may be absent is null where it is. -/
instance : Wire (Option α) where
  encode := Json.ofOption encode
  decode known := Json.nullable? (decode known)

/-- A field that may be absent or null. -/
def fieldOption (known : Nat) (j : Json) (name : String) : Option (Option α) :=
  fieldOr known j name none

instance : Wire String where
  encode := .str
  decode _ := Json.string?

instance : Wire Bool where
  encode := .bool
  decode _ := Json.boolean?

/-- Numbers without sign have 64 bits. -/
instance : Wire Nat where
  encode := Json.ofNat
  decode _ := Json.word?

instance : Wire ApplicationId where
  encode a := .str a.text
  decode known j := j.string?.bind (ApplicationId.read? known)

end Wire

end TaskGrid
