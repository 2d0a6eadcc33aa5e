import TaskGrid.Machine.World
import TaskGrid.Text.Blank

/-!
# Settings

What a grid is set up with: the policy, the orchestration node, whether that node keeps a unit for
itself, and how many ended actions are remembered.
-/

namespace TaskGrid

/-- The choice of a policy. -/
inductive PolicyChoice where
  | fifo
  | dataLocality
  | loadBalancing
  deriving DecidableEq

namespace PolicyChoice

/-- The name of the chosen policy. -/
def name : PolicyChoice → String
  | fifo => "fifo"
  | dataLocality => "data_locality"
  | loadBalancing => "load_balancing"

/-- The chosen policy. -/
def policy : PolicyChoice → Policy
  | fifo => .fifo
  | dataLocality => .dataLocality
  | loadBalancing => .loadBalancing

/-- The choice of an exact name. -/
def ofName? : String → Option PolicyChoice
  | "fifo" => some fifo
  | "data_locality" => some dataLocality
  | "load_balancing" => some loadBalancing
  | _ => none

/-- A name without blanks at its ends, in lower case, with underscores for hyphens. -/
def normalize (s : String) : String :=
  String.ofList ((Text.trim s.toList).map fun c => if c = '-' then '_' else c.toLower)

/-- Reads a choice as people write it: in any case, with hyphens or underscores, also by its short
name. -/
def read (s : String) : Except Fault PolicyChoice :=
  match normalize s with
  | "fifo" => .ok fifo
  | "data_locality" => .ok dataLocality
  | "locality" => .ok dataLocality
  | "load_balancing" => .ok loadBalancing
  | "lb" => .ok loadBalancing
  | other => .error (.invalidConfig ("unknown policy `" ++ other ++ "`"))

@[simp] theorem ofName?_name (c : PolicyChoice) : ofName? c.name = some c := by cases c <;> rfl

@[simp] theorem policy_name (c : PolicyChoice) : c.policy.name = c.name := by cases c <;> rfl

end PolicyChoice

/-- What a grid is set up with. -/
structure Settings where
  /-- The policy. -/
  policy : PolicyChoice := .fifo
  /-- The name of the orchestration node. -/
  localNode : String := "localhost"
  /-- Whether the orchestration node keeps a unit for itself. -/
  withholds : Bool := true
  /-- How many ended actions are remembered. -/
  historyLimit : Nat := 1024
  deriving DecidableEq

namespace Settings

/-- Refuses a name of the orchestration node that is blank or holds a blank. -/
def validate (s : Settings) : Except Fault Unit :=
  if (Text.trim s.localNode.toList).isEmpty then
    .error (.invalidConfig "local_node must not be empty")
  else if s.localNode.toList.any Text.isBlank then
    .error (.invalidConfig ("local_node `" ++ s.localNode ++ "` must not contain whitespace"))
  else .ok ()

/-- A grid set up with valid settings. -/
def build (s : Settings) : Except Fault World :=
  s.validate.map fun _ => .fresh s.policy.policy [s.localNode] s.withholds s.historyLimit

end Settings

end TaskGrid
