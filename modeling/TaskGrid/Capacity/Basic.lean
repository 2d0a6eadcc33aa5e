import TaskGrid.Capacity.Units

/-!
# Capacities

A capacity counts units in each of four processor categories.  Offers, requirements and what a
worker has free are all capacities.  A category without units and a category that is not
mentioned are the same thing, so a capacity is four counts and nothing else.

## Main definitions

* `Capacity.get`, `Capacity.set`: one category.
* `Capacity.contains`: whether a requirement fits, category by category.
* `Capacity.merge`: the sum of two capacities, saturating in each category.
* `Capacity.subtract`: the difference, or the first category that has too little.
* `Capacity.pairs`, `Capacity.text`: the categories that hold units, in order.
-/

namespace TaskGrid

/-- A processor category. -/
inductive Category where
  | cpu
  | gpu
  | fpga
  | other
  deriving DecidableEq

namespace Category

/-- The categories, in order. -/
def all : List Category := [cpu, gpu, fpga, other]

/-- The written name. -/
def name : Category → String
  | cpu => "cpu"
  | gpu => "gpu"
  | fpga => "fpga"
  | other => "other"

/-- The category of a written name. -/
def ofName? : String → Option Category
  | "cpu" => some cpu
  | "gpu" => some gpu
  | "fpga" => some fpga
  | "other" => some other
  | _ => none

/-- The category from which the orchestration node keeps a unit for itself. -/
def primary : Category := cpu

@[simp] theorem ofName?_name (c : Category) : ofName? c.name = some c := by cases c <;> rfl

theorem mem_all (c : Category) : c ∈ all := by cases c <;> simp [all]

end Category

/-- A request for more units than a category holds. -/
structure Shortage where
  /-- The category. -/
  category : Category
  /-- What it holds. -/
  available : Units
  /-- What was asked for. -/
  requested : Units
  deriving DecidableEq

/-- Units in each category. -/
@[ext] structure Capacity where
  /-- General purpose units. -/
  cpu : Units := 0
  /-- Graphics devices. -/
  gpu : Units := 0
  /-- Programmable gate arrays. -/
  fpga : Units := 0
  /-- Other accelerators. -/
  other : Units := 0
  deriving DecidableEq

namespace Capacity

/-- No units. -/
def empty : Capacity := {}

instance : Inhabited Capacity := ⟨empty⟩

/-- The capacity with `f c` units in each category `c`. -/
def ofFn (f : Category → Units) : Capacity := ⟨f .cpu, f .gpu, f .fpga, f .other⟩

/-- The units of a category. -/
def get (a : Capacity) : Category → Units
  | .cpu => a.cpu
  | .gpu => a.gpu
  | .fpga => a.fpga
  | .other => a.other

/-- The capacity with the units of one category replaced. -/
def set (a : Capacity) (c : Category) (u : Units) : Capacity :=
  ofFn fun d => if d = c then u else a.get d

/-- Units of the primary category only. -/
def cpus (u : Units) : Capacity := { cpu := u }

/-- Whether no category has units. -/
def isEmpty (a : Capacity) : Bool := a == empty

/-- The categories with units, in order. -/
def pairs (a : Capacity) : List (Category × Units) :=
  (Category.all.map fun c => (c, a.get c)).filter fun p => p.2 ≠ 0

/-- The units of all categories together. -/
def total (a : Capacity) : Nat := a.cpu.count + a.gpu.count + a.fpga.count + a.other.count

/-- Whether every category of `need` fits. -/
def contains (a need : Capacity) : Bool := Category.all.all fun c => need.get c ≤ a.get c

/-- The sum in each category. -/
def merge (a b : Capacity) : Capacity := ofFn fun c => a.get c + b.get c

/-- The first category in which `b` exceeds `a`. -/
def shortage? (a b : Capacity) : Option Shortage :=
  Category.all.findSome? fun c =>
    if a.get c < b.get c then some ⟨c, a.get c, b.get c⟩ else none

/-- The difference in each category, unless one has too little. -/
def subtract (a b : Capacity) : Except Shortage Capacity :=
  match a.shortage? b with
  | some s => .error s
  | none => .ok (ofFn fun c => a.get c - b.get c)

/-- The capacity of a list of amounts; amounts of one category are added. -/
def ofPairs (l : List (Category × Units)) : Capacity :=
  l.foldl (fun a p => a.set p.1 (a.get p.1 + p.2)) empty

/-- The written form: the categories with units between braces. -/
def text (a : Capacity) : String :=
  "\x7b" ++ ", ".intercalate (a.pairs.map fun p => p.1.name ++ ": " ++ toString p.2.count) ++ "\x7d"

/-! ## Units of each category -/

@[simp] theorem get_ofFn (f : Category → Units) (c : Category) : (ofFn f).get c = f c := by
  cases c <;> rfl

@[simp] theorem get_empty (c : Category) : empty.get c = 0 := by cases c <;> rfl

/-- Capacities with the same units in every category are equal. -/
theorem ext_get {a b : Capacity} (h : ∀ c, a.get c = b.get c) : a = b :=
  Capacity.ext (h .cpu) (h .gpu) (h .fpga) (h .other)

@[simp] theorem get_set (a : Capacity) (c d : Category) (u : Units) :
    (a.set c u).get d = if d = c then u else a.get d := by simp [set]

@[simp] theorem get_merge (a b : Capacity) (c : Category) :
    (a.merge b).get c = a.get c + b.get c := by simp [merge]

theorem contains_iff {a need : Capacity} :
    a.contains need = true ↔ ∀ c, need.get c ≤ a.get c := by
  simp only [contains, List.all_eq_true, decide_eq_true_eq]
  exact ⟨fun h c => h c c.mem_all, fun h c _ => h c⟩

theorem shortage?_eq_none_iff {a b : Capacity} : a.shortage? b = none ↔ a.contains b = true := by
  simp only [shortage?, List.findSome?_eq_none_iff, contains_iff, ite_eq_right_iff, reduceCtorEq,
    imp_false, Units.lt_iff, Units.le_iff, Nat.not_lt]
  exact ⟨fun h c => h c c.mem_all, fun h c _ => h c⟩

/-- A difference is taken exactly when the subtrahend fits. -/
theorem subtract_of_contains {a b : Capacity} (h : a.contains b = true) :
    a.subtract b = .ok (ofFn fun c => a.get c - b.get c) := by
  rw [subtract, shortage?_eq_none_iff.2 h]

end Capacity

end TaskGrid
