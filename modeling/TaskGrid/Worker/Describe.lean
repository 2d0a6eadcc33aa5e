import TaskGrid.Text.Quoted
import TaskGrid.Worker.Basic

/-!
# Descriptions for diagnostics

One-line descriptions of workers and session monitors, which show what identifies them and leave
out what changes.
-/

namespace TaskGrid

/-- The description of an application. -/
def ApplicationId.describe (a : ApplicationId) : String := "ApplicationId(" ++ a.text ++ ")"

/-- The description of a key. -/
def WorkerKey.describe (k : WorkerKey) : String :=
  let scope := match k.scope with
    | some app => "Some(" ++ app.describe ++ ")"
    | none => "None"
  "WorkerKey \x7b name: " ++ Text.quoted k.name ++ ", scope: " ++ scope ++ " \x7d"

/-- The description of a worker under its key. -/
def Worker.describe (w : Worker) (key : WorkerKey) : String :=
  "Worker \x7b key: " ++ key.describe ++ ", seq: " ++ toString w.seq ++ ", adaptor: " ++
    Text.quoted w.adaptor.adaptor ++ ", .. \x7d"

/-- The description of the monitor of an application's main action. -/
def ApplicationId.describeMonitor (a : ApplicationId) (ended : Bool) : String :=
  "SessionMonitor \x7b app: " ++ a.describe ++ ", ended: " ++ (if ended then "true" else "false") ++
    ", .. \x7d"

end TaskGrid
