import TaskGrid.Machine.World
import TaskGrid.Wire.Request

/-!
# Commands, read

A command is an object that names what is to be done in the field `do`.
-/

namespace TaskGrid.Wire

/-- The key of a worker, where a mere name means the permanent pool. -/
def workerKey? (known : Nat) : Json → Option WorkerKey
  | .str name => some (.permanent name)
  | j => decode known j

/-- What a transfer does with a datum: where it is saved, or why it is not. -/
def transferRule? (known : Nat) (j : Json) : Option (String → Except String Replica) :=
  match j.field? "ok", j.field? "persist", j.field? "err" with
  | some v, _, _ => (decode known v).map fun r _ => .ok r
  | none, some v, _ => v.string?.map fun start data => .ok (.persistent (start ++ data))
  | none, none, some v => v.string?.map fun reason _ => .error reason
  | none, none, none => none

/-- The rules of single data. -/
def transferRules? (known : Nat) :
    List (String × Json) → Option (List (String × (String → Except String Replica)))
  | [] => some []
  | (name, v) :: r => do return (name, ← transferRule? known v) :: (← transferRules? known r)

/-- A transfer: a rule for single data, and one for all others. -/
def transfer? (known : Nat) (j : Json) : Option Transfer := do
  let default ← j.required? "default" (transferRule? known)
  let rules ← j.defaulted? "by_data" [] fun
    | .obj fields => transferRules? known fields
    | _ => none
  return ⟨fun data _ => ((rules.find? fun r => r.1 = data).elim default Prod.snd) data⟩

/-- Reads the operation of the pool called `name`. -/
def poolOperation? (known : Nat) (name : String) (j : Json) : Option Pool.Operation := do
  let key ← j.required? "worker" (workerKey? known)
  match name with
  | "pool_add_worker" =>
    return .add key (← field known j "units") (← fieldOr known j "adaptor" (.named ""))
  | "pool_reduce_worker" => return .reduce key (← field known j "units")
  | "pool_remove_worker" =>
    return .remove key ((← fieldOption known j "hook").map .caller)
  | "pool_lost_worker" => return .lose key
  | "worker" => return .look key
  | _ => none

/-- Reads a command about actions or workers. -/
def schedulingCommand? (known : Nat) (monitor : Monitor) (name : String) (j : Json) :
    Option Command := do
  match name with
  | "add_worker" =>
    return .addWorker (← j.required? "worker" (workerKey? known)) (← field known j "units")
      (← fieldOr known j "adaptor" (.named ""))
  | "reduce_worker" =>
    return .reduceWorker (← j.required? "worker" (workerKey? known)) (← field known j "units")
  | "remove_worker" =>
    return .removeWorker (← j.required? "worker" (workerKey? known))
      ((← fieldOption known j "hook").map .caller)
  | "lost_worker" => return .loseWorker (← j.required? "worker" (workerKey? known))
  | "submit" => return .submit (← field known j "task") monitor
  | "pass" => return .pass
  | "mark_running" => return .markRunning (← field known j "id")
  | "complete" => return .complete (← field known j "id") (← fieldOr known j "outputs" [])
  | "fail" => return .fail (← field known j "id") (← field known j "reason")
  | "cancel" => return .cancel (← field known j "id")
  | "set_listener" =>
    return .setListener ⟨← fieldOr known j "claim" false, ← fieldOr known j "quiet" false⟩
  | _ => return .pool (← poolOperation? known name j)

/-- Reads a command about data. -/
def dataCommand? (known : Nat) (name : String) (j : Json) : Option Command := do
  match name with
  | "register" => return .register (← field known j "name")
  | "link" => return .link (← field known j "alias") (← field known j "existing")
  | "add_location" => return .addReplica (← field known j "name") (← field known j "location")
  | "mount" =>
    return .mount (← field known j "disk") (← field known j "host") (← field known j "mount_point")
  | "unmount_host" => return .unmountHost (← field known j "host")
  | "start_copy" =>
    return .startCopy (← field known j "name") (← field known j "target")
      (← fieldOption known j "listener")
  | "add_copy_listener" =>
    return .listenToCopy (← field known j "id") (← field known j "data")
      (← field known j "listener")
  | "finish_copy" => return .finishCopy (← field known j "id") (← field known j "data")
  | "fail_copy" =>
    return .failCopy (← field known j "id") (← field known j "data") (← field known j "reason")
  | "rescue" => return .removeHost (← field known j "name") (← field known j "host")
  | "mark_obsolete" => return .markObsolete (← field known j "name")
  | "take_obsolete" => return .takeObsolete (← field known j "host")
  | "forget_host" => return .forgetHost (← field known j "host")
  | "set_in_memory" => return .setInMemory (← field known j "name") (← field known j "value")
  | "set_size" => return .setSize (← field known j "name") (← field known j "value")
  | "subscribe" => return .subscribe (← field known j "label")
  | "unsubscribe" => return .unsubscribe (← field known j "label")
  | "perform_rescues" =>
    return .rescue (← field known j "orders") (← j.required? "transfer" (transfer? known))
  | _ => none

/-- Reads a command to the agent. -/
def agentCommand? (known : Nat) (monitor : Monitor) (name : String) (j : Json) :
    Option Command := do
  match name with
  | "offer" => return .offerNode (← field known j "offer") (← fieldOption known j "app")
  | "offer_new" =>
    return .offerNode ⟨← field known j "name", ← field known j "units", .named ""⟩
      (← fieldOption known j "app")
  | "agent_reduce" => return .reduceNode (← field known j "request")
  | "agent_remove" => return .removeNode (← field known j "request")
  | "agent_lost" => return .loseNode (← field known j "request")
  | "remote_data" => return .importData (← field known j "request")
  | "run_task" => return .runTask (← field known j "request") monitor
  | "finish_app" => return .finishApplication (← field known j "app")
  | "set_sink" =>
    match ← j.optional? "transfer" (transfer? known) with
    | none => return .noteRescues
    | some t =>
      return .dispatchRescues t (← fieldOr known j "deferred" false)
        (← fieldOr known j "reports" false)
  | "dispatch" => return .dispatch (← field known j "orders")
  | "run_pending" => return .runDeferred
  | "reports" => return .collectReports
  | "drop_reports" => return .dropReports
  | "drop_agent" => return .dismissAgent
  | "start_session" => return .startSession monitor
  | "session_add_node" =>
    return .addSessionNode (← field known j "app") (← j.required? "worker" (workerKey? known))
  | "session_finish" => return .finishSession (← field known j "app")
  | "session_event" => return .tellSession (← field known j "app") (← field known j "event")
  | _ => none

/-- Reads a command.  Where it submits a task or opens a session, `monitor` is who is told. -/
def command? (known : Nat) (monitor : Monitor) (j : Json) : Option Command := do
  let name ← j.required? "do" Json.string?
  (agentCommand? known monitor name j).or
    ((dataCommand? known name j).or (schedulingCommand? known monitor name j))

end TaskGrid.Wire
