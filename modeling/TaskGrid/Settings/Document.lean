import TaskGrid.Json.Reader
import TaskGrid.Settings.Basic

/-!
# Settings as a document

Settings are written as a JSON object with a field for each setting, or as an array of the
settings in order.  Settings that are left out keep their defaults.  An object may have further
fields, which are skipped whatever they hold; a setting that is given twice is refused.
-/

namespace TaskGrid.Settings

/-- The choice of a policy as it is written in a document. -/
def policyOf? : Json → Option PolicyChoice
  | .str s => PolicyChoice.ofName? s
  | .obj [(s, .null)] => PolicyChoice.ofName? s
  | _ => none

/-- The settings in order, all of which have defaults. -/
def shape : Json.Shape where
  names := ["policy", "local_node", "withhold_master_unit", "history_limit"]
  omittable := 4

/-- Settings, where of two fields of one name the later counts. -/
def ofRecord? : Json → Option Settings := Json.record? shape fun j => do
  let d : Settings := {}
  return {
    policy := ← j.defaulted? "policy" d.policy policyOf?
    localNode := ← j.defaulted? "local_node" d.localNode Json.string?
    withholds := ← j.defaulted? "withhold_master_unit" d.withholds Json.boolean?
    historyLimit := ← j.defaulted? "history_limit" d.historyLimit Json.word? }

/-- The settings of a document, none of which may be given twice. -/
def ofJson? : Json → Option Settings
  | .obj fields =>
    if shape.names.all fun name => fields.countP (fun f => f.1 = name) ≤ 1 then
      ofRecord? (.obj fields)
    else none
  | j => ofRecord? j

/-- Reads and validates a document. -/
def ofDocument (text : String) : Except Fault Settings :=
  match (Json.scan? text).bind ofJson? with
  | none => .error (.invalidConfig "parse error")
  | some s => s.validate.map fun _ => s

end TaskGrid.Settings
