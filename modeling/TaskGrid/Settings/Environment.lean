import TaskGrid.Settings.Basic
import TaskGrid.Text.Numeral

/-!
# Settings from variables

Each setting may be given by a variable; one that is not given keeps its default.  The variables
are read in a fixed order and the first problem is reported, with the variable in front of the
cause.
-/

namespace TaskGrid.Settings

/-- Why variables do not give settings. -/
inductive Problem where
  /-- The policy is not known. -/
  | policy (f : Fault)
  /-- Whether a unit is withheld is neither `true` nor `false`. -/
  | withholding (text : String)
  /-- The limit of the history is not a number. -/
  | historyLimit (text : String) (cause : Text.Numeral.Problem)
  /-- The settings as a whole are refused. -/
  | invalid (f : Fault)
  deriving DecidableEq

namespace Problem

/-- The texts of a problem, the outermost first. -/
def chain : Problem → List String
  | policy f => ["ELASTIC_POLICY", f.message]
  | withholding t =>
    ["ELASTIC_WITHHOLD_MASTER_UNIT=`" ++ t ++ "`", "provided string was not `true` or `false`"]
  | historyLimit t cause => ["ELASTIC_HISTORY_LIMIT=`" ++ t ++ "`", cause.message]
  | invalid f => [f.message]

/-- The fault behind a problem, if it is one of the grid's own. -/
def fault? : Problem → Option Fault
  | policy f => some f
  | invalid f => some f
  | _ => none

end Problem

/-- The names of the variables. -/
def variableNames : List String :=
  ["ELASTIC_POLICY", "ELASTIC_LOCAL_NODE", "ELASTIC_WITHHOLD_MASTER_UNIT", "ELASTIC_HISTORY_LIMIT"]

/-- A truth value as it is written in a variable. -/
def readFlag (t : String) : Except Problem Bool :=
  if t = "true" then .ok true else if t = "false" then .ok false else .error (.withholding t)

/-- A limit as it is written in a variable. -/
def readLimit (t : String) : Except Problem Nat :=
  (Text.Numeral.read 18446744073709551615 t.toList).mapError (.historyLimit t)

/-- The value that `read` gives to a variable, or the default of a variable that is not given. -/
def given {α : Type} (lookup : String → Option String) (name : String) (default : α)
    (read : String → Except Problem α) : Except Problem α :=
  match lookup name with
  | some t => read t
  | none => .ok default

/-- The settings given by variables. -/
def ofLookup (lookup : String → Option String) : Except Problem Settings := do
  let d : Settings := {}
  let policy ← given lookup "ELASTIC_POLICY" d.policy fun t =>
    (PolicyChoice.read t).mapError .policy
  let localNode ← given lookup "ELASTIC_LOCAL_NODE" d.localNode .ok
  let withholds ← given lookup "ELASTIC_WITHHOLD_MASTER_UNIT" d.withholds readFlag
  let historyLimit ← given lookup "ELASTIC_HISTORY_LIMIT" d.historyLimit readLimit
  let s : Settings := { policy, localNode, withholds, historyLimit }
  s.validate.mapError .invalid
  return s

/-- The settings given by the variables of an environment, where an empty variable is not
given. -/
def ofEnvironment (lookup : String → Option String) : Except Problem Settings :=
  ofLookup fun name => (lookup name).filter fun t => !t.isEmpty

end TaskGrid.Settings
