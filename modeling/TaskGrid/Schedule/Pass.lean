import TaskGrid.Schedule.Table

/-!
# Scheduling passes

A pass binds ready actions to workers, the best candidate first, until nothing more fits.  It
works on views of the workers that were taken when it began and are kept up to date by its own
bindings, so that views need not be taken again for every binding.

## When the pool changes meanwhile

Scoring a candidate may disturb the pool.  A view can then promise what the worker no longer has.
The reservation is made on the pool itself, and so it is never wrong; where it is refused, the view
is taken again if it now shows that the action does not fit, and dropped otherwise.  Every refusal
uses up one disturbance, which bounds the number of steps (`Pass.bound`).

## Main definitions

* `Pass.best?`: the best candidate, after all candidates have been scored.
* `Pass.step`: one binding, or one refusal.
* `Pass.run`: a whole pass, with the report of the actions that no worker could ever carry out.
-/

namespace TaskGrid

/-- A candidate binding. -/
structure Candidate where
  /-- The ready action. -/
  action : Action
  /-- The view of the worker. -/
  view : WorkerView
  /-- The position of the implementation. -/
  index : Nat
  /-- The implementation. -/
  implementation : Implementation
  deriving DecidableEq

/-- What happened while candidates were scored. -/
inductive Incident where
  /-- A hook has to be told that a worker left. -/
  | told (hook : RemovalHook) (removed : RemovedWorker)
  /-- A disturbance got an answer. -/
  | answered (name : String) (answer : Pool.Answer)
  deriving DecidableEq

/-- A pass under way. -/
structure Pass where
  /-- The table of actions. -/
  schedule : Schedule
  /-- The pool. -/
  pool : Pool
  /-- The catalog of data. -/
  catalog : Catalog
  /-- The disturbances still to come. -/
  disturbances : List Disturbance
  /-- How many candidates have been scored. -/
  scored : Nat
  /-- The views of the workers that may accept actions. -/
  views : List WorkerView
  /-- What there is to tell. -/
  outbox : Outbox := {}
  /-- What happened while candidates were scored, in order. -/
  incidents : List Incident := []

namespace Pass

/-- The views of the workers that were not asked to leave. -/
def accepting (p : Pool) : List WorkerView := p.views.filter fun v => !v.removing

/-! ## Candidates -/

/-- The candidates of one action on one worker. -/
def candidatesOn (a : Action) (v : WorkerView) : List Candidate :=
  a.task.implementations.zipIdx.filterMap fun (i, n) =>
    if v.free.contains i.requirement then some ⟨a, v, n, i⟩ else none

/-- The candidates of all ready actions on the workers in view: by action, then by worker, then by
implementation. -/
def candidates (s : Schedule) (views : List WorkerView) : List Candidate :=
  s.ready.toList.flatMap fun id =>
    match s.actions.get? id with
    | none => []
    | some x => views.flatMap (candidatesOn x.action)

/-- The rank of a candidate. -/
def rank (policy : Policy) (c : Catalog) (x : Candidate) : Rank where
  score := policy.score c x.action x.view x.implementation
  seq := x.view.seq
  implementation := x.index

/-- Carries out one disturbance. -/
def disturb (p : Pass) (d : Disturbance) : Pass :=
  let o := p.pool.perform p.catalog d.operation
  { p with
    pool := o.pool
    catalog := o.catalog
    incidents := p.incidents ++ o.told.map (fun t => .told t.1 t.2) ++ [.answered d.name o.answer] }

/-- The pass after the disturbances that are due when a candidate is scored. -/
def disturbFor (p : Pass) (x : Candidate) : Pass :=
  let due (d : Disturbance) : Bool := d.due p.scored x.action x.view x.implementation
  (p.disturbances.filter due).foldl disturb
    { p with
      disturbances := p.disturbances.filter fun d => !due d
      scored := p.scored + 1 }

/-- Scores one candidate and keeps it if it is better than the best so far. -/
def consider (policy : Policy) : Pass × Option (Rank × Candidate) → Candidate →
    Pass × Option (Rank × Candidate)
  | (p, best), x =>
    let p := p.disturbFor x
    let r := rank policy p.catalog x
    match best with
    | none => (p, some (r, x))
    | some b => (p, if r.better b.1 then some (r, x) else some b)

/-- Scores all candidates.  Returns the best of them. -/
def best? (policy : Policy) (p : Pass) : Pass × Option Candidate :=
  let (p, best) := (candidates p.schedule p.views).foldl (consider policy) (p, none)
  (p, best.map Prod.snd)

/-! ## Steps -/

/-- The pass after a reservation for a candidate, which left `free` on its worker. -/
def bind (p : Pass) (x : Candidate) (free : Capacity) (pool : Pool) : Pass :=
  let id := x.action.id
  let key := x.view.key
  let need := x.implementation.requirement
  let adjust (v : WorkerView) : WorkerView :=
    if v.key = key then { v with free, queueDepth := v.queueDepth + 1 } else v
  match p.schedule.actions.get? id with
  | none => { p with schedule := { p.schedule with ready := p.schedule.ready.erase id } }
  | some e =>
    let (e, outbox) := { e with state := .assigned, binding := some key }.emit
      (.assigned id key x.index) p.outbox
    { p with
      pool
      views := p.views.map adjust
      schedule := { p.schedule with
        ready := p.schedule.ready.erase id
        actions := p.schedule.actions.insert id e }
      outbox := { outbox with
        assignments := outbox.assignments ++ [⟨id, key, x.index, x.implementation.handler, need⟩]
        capacity := outbox.capacity ++ [(key, free)] } }

/-- The pass after a reservation for a candidate was refused. -/
def revise (p : Pass) (x : Candidate) : Pass :=
  let key := x.view.key
  let drop := { p with views := p.views.filter fun v => v.key ≠ key }
  match p.pool.view? key with
  | none => drop
  | some fresh =>
    if !fresh.removing && !fresh.free.contains x.implementation.requirement then
      { p with views := p.views.map fun v => if v.key = key then fresh else v }
    else drop

/-- One step: the best candidate is bound, or its worker's view is revised.  The second part says
whether there was a candidate. -/
def step (policy : Policy) (p : Pass) : Pass × Bool :=
  match p.best? policy with
  | (p, none) => (p, false)
  | (p, some x) =>
    match p.pool.reserve? x.view.key x.action.id x.implementation.requirement with
    | some (free, pool) => (p.bind x free pool, true)
    | none => (p.revise x, true)

/-- Steps until there is no candidate, at most `n` of them. -/
def steps (policy : Policy) : Nat → Pass → Pass
  | 0, p => p
  | n + 1, p =>
    match p.step policy with
    | (p, false) => p
    | (p, true) => steps policy n p

/-- Enough steps for a pass: one for each ready action, one for each refusal, and the last one,
which finds no candidate. -/
def bound (p : Pass) : Nat :=
  p.schedule.ready.size + p.views.length + p.disturbances.length + 1

/-! ## The whole pass -/

/-- Whether a worker in view could ever carry out an action. -/
def isEligible (views : List WorkerView) (a : Action) : Bool :=
  views.any fun v => a.task.implementations.any fun i => v.total.contains i.requirement

/-- Reports one ready action if no worker in view could ever carry it out. -/
def reportOne (views : List WorkerView) (s : Schedule) (o : Outbox) (id : Nat) :
    Schedule × Outbox :=
  match s.actions.get? id with
  | none => (s, o)
  | some x =>
    if isEligible views x.action then (s, o)
    else
      let (x, o) := x.emit (.noEligibleResource id) o
      ({ s with actions := s.actions.insert id x }, o)

/-- Reports the ready actions that no registered worker could ever carry out. -/
def reportIneligible (p : Pass) : Pass :=
  let (schedule, outbox) := p.schedule.ready.toList.foldl
    (fun (s, o) id => reportOne (accepting p.pool) s o id) (p.schedule, p.outbox)
  { p with schedule, outbox }

/-- The beginning of a pass. -/
def start (s : Schedule) (pool : Pool) (c : Catalog) (disturbances : List Disturbance)
    (scored : Nat) : Pass :=
  { schedule := s, pool, catalog := c, disturbances, scored, views := accepting pool }

/-- A whole pass. -/
def run (policy : Policy) (p : Pass) : Pass := (steps policy p.bound p).reportIneligible

end Pass

end TaskGrid
