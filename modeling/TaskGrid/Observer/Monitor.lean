import TaskGrid.Action.Event
import TaskGrid.Application.Id

/-!
# Monitors

The monitor of an action is told the events of its life.  Clients are told and may answer with
commands of their own; the other monitors only keep what they are told, or pass it on.
-/

namespace TaskGrid

/-- Who is told the events of an action. -/
inductive Monitor where
  /-- Nobody. -/
  | silent
  /-- A client, by its number and label. -/
  | client (id : Nat) (label : String)
  /-- A recorder, which keeps the last `limit` events and at least one. -/
  | recorder (label : String) (limit : Nat)
  /-- A mailbox, from which events are collected. -/
  | mailbox (id : Nat)
  /-- The session of an application, which passes every event on to its own monitor and closes
  at the first terminal one. -/
  | session (app : ApplicationId) (inner : Monitor)
  deriving DecidableEq

namespace Monitor

/-- What a recorder holds after one more event. -/
def record (limit : Nat) (held : List Event) (e : Event) : List Event :=
  (if limit ≤ held.length then held.drop 1 else held) ++ [e]

end Monitor

end TaskGrid
