import TaskGrid.Capacity.Basic
import TaskGrid.Wire.Basic

/-!
# Capacities, written

A capacity is an object with a field for each category that holds units.  Categories without units
may be written and are not kept.
-/

namespace TaskGrid.Wire

instance : Wire Units where
  encode u := Json.ofNat u.count
  decode _ j := (j.natural? Units.limit).bind Units.ofNat?

instance : Wire Category where
  encode c := .str c.name
  decode _ j := j.string?.bind Category.ofName?

/-- Reads the fields of a capacity onto `a`. -/
def capacityFields (known : Nat) (a : Capacity) : List (String × Json) → Option Capacity
  | [] => some a
  | (name, v) :: r => do
    let c ← Category.ofName? name
    let u ← decode known v
    capacityFields known (a.set c u) r

instance : Wire Capacity where
  encode a := .obj (a.pairs.map fun p => (p.1.name, encode p.2))
  decode known
    | .obj fields => capacityFields known .empty fields
    | _ => none

end TaskGrid.Wire
