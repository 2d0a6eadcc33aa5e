import TaskGrid.Action.Basic
import TaskGrid.Action.Event
import TaskGrid.Agent.Request
import TaskGrid.Agent.Rescue
import TaskGrid.Agent.Session
import TaskGrid.Application.Id
import TaskGrid.Application.Uuid
import TaskGrid.Capacity.Basic
import TaskGrid.Capacity.Units
import TaskGrid.Catalog.Basic
import TaskGrid.Catalog.Copies
import TaskGrid.Catalog.Datum
import TaskGrid.Catalog.Departure
import TaskGrid.Fault
import TaskGrid.Json.Basic
import TaskGrid.Json.Printer
import TaskGrid.Json.Reader
import TaskGrid.Machine.Applications
import TaskGrid.Machine.Command
import TaskGrid.Machine.Data
import TaskGrid.Machine.Item
import TaskGrid.Machine.Obey
import TaskGrid.Machine.Reach
import TaskGrid.Machine.Run
import TaskGrid.Machine.Scheduling
import TaskGrid.Machine.Telling
import TaskGrid.Machine.World
import TaskGrid.Observer.Monitor
import TaskGrid.Policy.Basic
import TaskGrid.Policy.Score
import TaskGrid.Pool.Basic
import TaskGrid.Pool.HostName
import TaskGrid.Pool.Operation
import TaskGrid.Replica.Basic
import TaskGrid.Replica.Mounts
import TaskGrid.Schedule.Pass
import TaskGrid.Schedule.Table
import TaskGrid.Settings.Basic
import TaskGrid.Settings.Document
import TaskGrid.Settings.Environment
import TaskGrid.Sorted.Map
import TaskGrid.Sorted.Set
import TaskGrid.Text.Blank
import TaskGrid.Text.Numeral
import TaskGrid.Text.Quoted
import TaskGrid.Text.Unseen
import TaskGrid.Wire.Action
import TaskGrid.Wire.Answer
import TaskGrid.Wire.Basic
import TaskGrid.Wire.Capacity
import TaskGrid.Wire.Command
import TaskGrid.Wire.Data
import TaskGrid.Wire.Request
import TaskGrid.Wire.Worker
import TaskGrid.Worker.Basic
import TaskGrid.Worker.Describe
import TaskGrid.Worker.Key
import TaskGrid.Proofs.Balance
import TaskGrid.Proofs.Course
import TaskGrid.Proofs.Table
import TaskGrid.Proofs.Workers
import TaskGrid.Proofs.Passes
import TaskGrid.Proofs.Turns
import TaskGrid.Proofs.Agreement
import TaskGrid.Proofs.Accounts
import TaskGrid.Proofs.WorkConservation
import TaskGrid.Proofs.Catalog
import TaskGrid.Proofs.Departure
import TaskGrid.Proofs.Changes
import TaskGrid.Proofs.Picks
import TaskGrid.Proofs.Copies
import TaskGrid.Proofs.CopyProtocol
import TaskGrid.Proofs.Interference
import TaskGrid.Proofs.Notices
import TaskGrid.Proofs.Isolation
import TaskGrid.Proofs.Announcements
import TaskGrid.Proofs.Deeds
import TaskGrid.Proofs.Waiting
import TaskGrid.Proofs.Promotion
import TaskGrid.Proofs.Lifecycle
import TaskGrid.Proofs.Hearing
import TaskGrid.Proofs.Instances
import TaskGrid.Proofs.Draining
import TaskGrid.Proofs.Coherence
import TaskGrid.Proofs.Holdings
import TaskGrid.Proofs.Naive
import TaskGrid.Proofs.Reports
import TaskGrid.Proofs.Observers
import TaskGrid.Proofs.Rescues
import TaskGrid.Proofs.Mirror
import TaskGrid.Proofs.Sessions
import TaskGrid.Proofs.Nodes
import TaskGrid.Proofs.Calls
import TaskGrid.Proofs.Replicas
import TaskGrid.Proofs.Saving
import TaskGrid.Proofs.Readers
import TaskGrid.Proofs.HostIndex
import TaskGrid.Proofs.Names
import TaskGrid.Proofs.Heeding
import TaskGrid.Proofs.RescueChoice
import TaskGrid.Proofs.Ledger
import TaskGrid.Proofs.LastWord
import TaskGrid.Proofs.Unplaced
import TaskGrid.Proofs.Precedence
import TaskGrid.Proofs.Withdrawals
import TaskGrid.Proofs.Imports
import TaskGrid.Proofs.Losses
import TaskGrid.Proofs.History
import TaskGrid.Proofs.Undoing
import TaskGrid.Proofs.Sources
import TaskGrid.Proofs.Rollback
import TaskGrid.Proofs.Lifetime
import TaskGrid.Proofs.Resolution
import TaskGrid.Proofs.Addresses
import TaskGrid.Proofs.Tallies
import TaskGrid.Proofs.RoundTrip
