import TaskGrid.Proofs.Reports

/-!
# What an item lets the observers hear

The listener is told what is free on a worker by three kinds of items, orders come to the sink by
one, and few commands exchange an observer.  All other items are discreet: they leave listener,
agent and sink as they are and tell none of them anything that matters to an account of capacity or
of rescues.

Where it matters what follows, too, eleven kinds of effects are told apart (`World.Utters`): the
operations on workers, with the items by which they are reported, and two for everything else.
Items that follow beside these are tame, that is, they tell nothing themselves.

* `Notice.isOfficial`: the notices that accounts of capacity and rescues read.
* `World.capacities`, `Item.capacities`: what the listener was told of free capacity.
* `World.Utters`, `World.utters_carryOut`: the effects of items.
* `World.Discreet`, `World.discreet_carryOut`: most items leave the observers alone.
* `Machine.Course.keepsAgreement`: table and pool agree in runs from any world in which they do.
-/

namespace TaskGrid

/-- Whether a notice is of something that the listener was told of a worker's capacity, or that a
hook or the sink were told of a worker that left. -/
def Notice.isOfficial : Notice → Bool
  | .capacity .. => true
  | .hooked .. => true
  | .handedOver .. => true
  | _ => false

/-- What a notice says the listener was told to be free. -/
def Notice.capacity? : Notice → Option (WorkerKey × Capacity)
  | .capacity key free => some (key, free)
  | _ => none

/-- What the listener was told to be free on workers, oldest first. -/
def World.capacities (w : World) : List (WorkerKey × Capacity) :=
  w.log.reverse.filterMap Notice.capacity?

namespace Item

/-- What an item tells the listener to be free on workers. -/
def capacities : Item → List (WorkerKey × Capacity)
  | .note n => n.capacity?.toList
  | .report _ capacity => capacity
  | .tellCapacity key free => [(key, free)]
  | _ => []

/-- Whether an item neither writes an official notice itself nor hands anything to the sink. -/
def isMute : Item → Bool
  | .note n => !n.isOfficial
  | .handOver _ => false
  | _ => true

/-- Whether an item is mute and tells the listener neither a binding nor what is free. -/
def isTame : Item → Bool
  | .note n => !n.isOfficial
  | .handOver _ | .tellCapacity .. => false
  | .report assignments _ => assignments.isEmpty
  | _ => true

/-- Whether an item tells the listener what is free on a worker and is not the report of actions
that have ended, which waits until everything else has been told of their end. -/
def tellsAtOnce : Item → Bool
  | .note n => n.capacity?.isSome
  | .report assignments _ => !assignments.isEmpty
  | .tellCapacity .. => true
  | _ => false

/-- Whether an item may register workers, or lead to an item that does. -/
def admits : Item → Bool
  | .obey .. | .joinNode .. | .takeOver _ | .takenOver .. | .prepare _ => true
  | _ => false

/-- Whether an item is the command to exchange the listener. -/
def setsListener : Item → Bool
  | .obey _ (.setListener _) => true
  | _ => false

end Item

/-- Whether a command exchanges no observer and hands nothing to the sink. -/
def Command.isDiscreet : Command → Bool
  | .setListener _ | .dismissAgent | .noteRescues | .dispatchRescues .. => false
  | .dispatch _ | .loseNode _ => false
  | _ => true

/-- Whether an item exchanges no observer, writes no official notice and hands nothing to the
sink. -/
def Item.isDiscreet : Item → Bool
  | .obey _ c => c.isDiscreet
  | .note n => !n.isOfficial
  | .report .. | .tellCapacity .. | .tellHook .. | .handOver _ => false
  | _ => true

/-! ## Tame items -/

namespace Item

attribute [simp] isMute isTame

variable {j : Item} {l : List Item}

@[simp] theorem isOfficial_replied (token : Nat) (r : Reply) :
    (Notice.replied token r).isOfficial = false := rfl

theorem isMute_of_isTame (h : j.isTame = true) : j.isMute = true := by
  cases j <;> first | rfl | exact h

theorem tellsAtOnce_of_isTame (h : j.isTame = true) : j.tellsAtOnce = false := by
  cases j with
  | note n => cases n <;> first | rfl | cases h
  | report assignments capacity => exact congrArg not h
  | tellCapacity key free => cases h
  | _ => rfl

theorem all_isMute_of_isTame (h : l.all isTame = true) : l.all isMute = true :=
  List.all_eq_true.mpr fun j hj => isMute_of_isTame (List.all_eq_true.mp h j hj)

/-- Discreet items tell nothing of free capacity unless they wait. -/
theorem capacities_of_isDiscreet (h : j.isDiscreet = true) : j.capacities = [] := by
  cases j with
  | note n => cases n <;> first | rfl | cases h
  | report | tellCapacity => cases h
  | _ => rfl

@[simp] theorem all_isTame_map {α : Type} {f : α → Item} (l : List α)
    (h : ∀ a, (f a).isTame = true) : (l.map f).all isTame = true := by
  rw [List.all_map]
  exact List.all_eq_true.mpr fun a _ => h a

/-- What there is to tell when nothing was bound is tame. -/
theorem all_isTame_ofOutbox {o : Outbox} (h : o.assignments = []) :
    (ofOutbox o).all isTame = true := by
  simp [ofOutbox, h]

@[simp] theorem all_isMute_ofOutbox (o : Outbox) : (ofOutbox o).all isMute = true := by
  simp [ofOutbox]

@[simp] theorem all_isTame_ofHooks (d : Pool.Departure) : (ofHooks d).all isTame = true := by
  simp [ofHooks]

@[simp] theorem all_isMute_ofHooks (d : Pool.Departure) : (ofHooks d).all isMute = true :=
  all_isMute_of_isTame (all_isTame_ofHooks d)

theorem isTame_ofIncident (i : Incident) : (ofIncident i).isTame = true := by
  cases i <;> rfl

end Item

namespace World

@[simp] theorem all_isTame_announcements (w : World) (names : List String) :
    (w.announcements names).all Item.isTame = true := by
  unfold announcements
  simp [List.all_flatMap, Notice.isOfficial]

@[simp] theorem all_isTame_answer (token : Option Nat) (r : Reply) :
    (answer token r).all Item.isTame = true := by
  simp [answer]

@[simp] theorem all_isTame_refuse (f : Fault) (next : Resume) :
    (refuse f next).all Item.isTame = true := by
  cases next <;> simp [refuse]

@[simp] theorem all_isTame_resume (r : Reply) (next : Resume) :
    (resume r next).all Item.isTame = true := by
  cases next <;> simp [resume]

end World

/-! ## What observers hear -/

namespace World

/-- From one world to another no observer was exchanged and nothing official was told. -/
structure Unheard (w w' : World) : Prop where
  /-- The same listener. -/
  listener : w'.listener = w.listener
  /-- An agent or none, as before. -/
  agent : w'.agent.isSome = w.agent.isSome
  /-- The same sink. -/
  sink : w'.sink = w.sink
  /-- The same official notices. -/
  official : w'.log.filter Notice.isOfficial = w.log.filter Notice.isOfficial

/-- An effect exchanges no observer, tells nothing official, and leads to mute items. -/
structure Discreet (w : World) (e : Effect) : Prop where
  /-- Nothing official was told. -/
  unheard : w.Unheard e.1
  /-- What follows is mute. -/
  mute : e.2.all Item.isMute = true

/-- What the item `i` can have as its effect in the world `w`, if it does not tell the listener
itself what is free. -/
inductive Utters (w : World) (i : Item) : Effect → Prop where
  /-- Nothing official is told, and nothing happens to workers. -/
  | aside {e : Effect} (unheard : w.Unheard e.1) (pool : e.1.pool = w.pool)
      (tame : e.2.all Item.isTame = true) : Utters w i e
  /-- An observer is exchanged, or the sink or a hook comes to know something. -/
  | exchange {e : Effect} (indiscreet : i.isDiscreet = false)
      (listener : i.setsListener = false → e.1.listener = w.listener)
      (capacities : e.1.capacities = w.capacities) (pool : e.1.pool = w.pool)
      (later : ∀ j ∈ e.2, j.tellsAtOnce = false) : Utters w i e
  /-- Capacity is offered. -/
  | offer (admits : i.admits = true) (key : WorkerKey) (offered : Capacity) (adaptor : Adaptor)
      {tail : List Item} (tame : tail.all Item.isTame = true) :
    Utters w i
      ((w.addWorker key offered adaptor).2.1, (w.addWorker key offered adaptor).2.2 ++ tail)
  /-- Capacity is withdrawn, or this is refused. -/
  | reduce (token : Nat) {key : WorkerKey} {c : Capacity}
      (deed : Moment.deed ⟨w, i⟩ = .reduce key c) : Utters w i (w.reduceWorker token key c)
  /-- A worker is asked to leave, if there is one. -/
  | remove (key : WorkerKey) (hook : Option RemovalHook) {tail : List Item}
      (tame : tail.all Item.isTame = true) :
    Utters w i ((w.removeWorker key hook).2.1, (w.removeWorker key hook).2.2 ++ tail)
  /-- A drained worker leaves, if it is still there. -/
  | retire (key : WorkerKey) (seq : Nat) : Utters w i (w.retire key seq)
  /-- The actions of a lost worker fail. -/
  | failBound (key : WorkerKey) (ids : List Nat) : Utters w i (w.failBound key ids)
  /-- A worker is lost, if there is one; the agent does not give it up discreetly. -/
  | lose (token : Nat) (key : WorkerKey) (byAgent : Bool)
      (indiscreet : byAgent = true → i.isDiscreet = false) :
    Utters w i (w.loseWorker token key byAgent)
  /-- A live action ends. -/
  | conclude (x : Entry) (values : List ProducedValue) (events : List Event) (last : ActionState)
      {tail : List Item} (tame : tail.all Item.isTame = true) :
    Utters w i ((w.conclude x values events last).1, (w.conclude x values events last).2 ++ tail)
  /-- A pass runs. -/
  | pass (token : Option Nat) : Utters w i (w.runPass token)
  /-- The pool changes behind the scheduler. -/
  | pool (token : Nat) {o : Pool.Operation} (asked : i = .obey token (.pool o)) :
    Utters w i (w.changePool token o)

variable {w w' w'' : World} {n : Notice} {i : Item} {items : List Item}

@[simp] theorem capacities_note (w : World) (n : Notice) :
    (w.note n).capacities = w.capacities ++ n.capacity?.toList := by
  unfold capacities
  cases h : n.capacity? <;> simp [h]

theorem capacities_eq (w : World) :
    w.capacities = (w.log.filter Notice.isOfficial).reverse.filterMap Notice.capacity? := by
  unfold capacities
  rw [← List.filter_reverse, List.filterMap_filter]
  refine List.filterMap_congr fun n _ => ?_
  cases n <;> rfl

theorem capacities_of_log (h : w'.log = w.log) : w'.capacities = w.capacities := by
  rw [capacities, h, ← capacities]

/-- The listener was told nothing of free capacity. -/
theorem Unheard.capacities (h : w.Unheard w') : w'.capacities = w.capacities := by
  rw [capacities_eq, h.official, ← capacities_eq]

theorem Unheard.refl (w : World) : w.Unheard w := ⟨rfl, rfl, rfl, rfl⟩

theorem Unheard.trans (h : w.Unheard w') (h' : w'.Unheard w'') : w.Unheard w'' :=
  ⟨h'.listener.trans h.listener, h'.agent.trans h.agent, h'.sink.trans h.sink,
    h'.official.trans h.official⟩

theorem unheard_note (h : n.isOfficial = false) : w.Unheard (w.note n) :=
  ⟨rfl, rfl, rfl, List.filter_cons_of_neg (by simp [h])⟩

theorem unheard_noteAll_map {α : Type} {f : α → Notice} (l : List α)
    (h : ∀ a, (f a).isOfficial = false) : w.Unheard (w.noteAll (l.map f)) := by
  induction l generalizing w with
  | nil => exact .refl w
  | cons a l ih => exact (unheard_note (h a)).trans ih

/-- An effect that changes nothing but what is known of actions and data. -/
theorem utters_of_eq (hl : w'.listener = w.listener) (ha : w'.agent = w.agent)
    (hs : w'.sink = w.sink) (ho : w'.log = w.log) (hp : w'.pool = w.pool)
    (ht : items.all Item.isTame = true) : w.Utters i (w', items) :=
  .aside ⟨hl, ha ▸ rfl, hs, ho ▸ rfl⟩ hp ht

theorem utters_self (ht : items.all Item.isTame = true) : w.Utters i (w, items) :=
  utters_of_eq rfl rfl rfl rfl rfl ht

/-! ### Actions and workers -/

theorem utters_wake (name : String) : w.Utters i (w.wake name) := by
  unfold wake
  dsimp only
  split
  · exact utters_of_eq rfl rfl rfl rfl rfl rfl
  · refine utters_of_eq rfl rfl rfl rfl rfl ?_
    rw [List.all_append, Item.all_isTame_ofOutbox (w.schedule.alike_wake name).assignments]
    rfl

theorem utters_submit (task : Submission) (monitor : Monitor) {tail : List Item}
    (tame : tail.all Item.isTame = true) :
    w.Utters i ((w.submit task monitor).2.1, (w.submit task monitor).2.2 ++ tail) := by
  refine utters_of_eq rfl rfl rfl rfl rfl ?_
  have hout := (w.schedule.alike_accept w.catalog task monitor).assignments
  rw [List.all_append, tame]
  dsimp only [submit]
  rw [List.all_append, Item.all_isTame_ofOutbox hout]
  rfl

theorem utters_complete (token id : Nat) (values : List ProducedValue) :
    w.Utters i (w.complete token id values) := by
  unfold complete
  split
  · exact utters_self (by simp)
  · next x _ =>
    split
    · exact .conclude x _ _ _ (by simp)
    · exact utters_self (by simp)

theorem utters_fail (token id : Nat) (reason : FailureReason) :
    w.Utters i (w.fail token id reason) := by
  unfold fail
  split
  · exact utters_self (by simp)
  · next x _ => exact .conclude x [] [.failed id reason] (.failed reason) (by simp)

theorem utters_cancel (token id : Nat) : w.Utters i (w.cancel token id) := by
  unfold cancel
  split
  · exact utters_self (by simp)
  · next x _ => exact .conclude x [] [.cancelled id] .cancelled (by simp)

theorem utters_markRunning (token id : Nat) : w.Utters i (w.markRunning token id) := by
  unfold markRunning
  split <;> exact utters_of_eq rfl rfl rfl rfl rfl (by simp)

theorem utters_answerRemoval (token : Nat) (key : WorkerKey) (hook : Option RemovalHook) :
    w.Utters i (w.answerRemoval token key hook) := by
  have hr {tail : List Item} (tame : tail.all Item.isTame = true) :
      w.Utters i ((w.removeWorker key hook).2.1, (w.removeWorker key hook).2.2 ++ tail) :=
    .remove key hook tame
  unfold answerRemoval
  generalize w.removeWorker key hook = r at hr
  obtain ⟨status, w', items⟩ := r
  cases status with
  | none => exact hr (by simp)
  | some s => exact hr (by simp)

/-! ### Data and rescues -/

theorem utters_addReplica (name : String) (r : Replica) (token : Option Nat) :
    w.Utters i (w.addReplica name r token) := utters_of_eq rfl rfl rfl rfl rfl (by simp)

theorem utters_endCopy (e : Catalog.CopyEnded) (outcome : CopyOutcome) {tail : List Item}
    (tame : tail.all Item.isTame = true) :
    w.Utters i ((w.endCopy e outcome).1, (w.endCopy e outcome).2 ++ tail) := by
  have hmoved : w.Unheard { w with catalog := e.catalog } := ⟨rfl, rfl, rfl, rfl⟩
  refine .aside (hmoved.trans (unheard_noteAll_map _ fun _ => rfl)) ?_ (by simp [endCopy, tame])
  simp [endCopy, noteAll_eq]

/-- The batch is published unheard. -/
theorem unheard_publish (channel : Option Nat) (r : RescueReport) :
    w.Unheard (w.publish channel r) ∧ (w.publish channel r).pool = w.pool := by
  unfold publish
  split
  · exact ⟨.refl w, rfl⟩
  · split <;> exact ⟨⟨rfl, rfl, rfl, rfl⟩, rfl⟩

theorem utters_rescue (b : RescueBatch) : w.Utters i (w.rescue b) := by
  unfold rescue
  split
  · unfold endBatch
    split
    · exact utters_self (by simp)
    · dsimp only
      split
      · exact .aside (unheard_publish _ _).1 (unheard_publish _ _).2 rfl
      · exact .aside ((unheard_note rfl).trans (unheard_publish _ _).1) (unheard_publish _ _).2 rfl
  · dsimp only
    split
    · exact .aside (unheard_note rfl) rfl rfl
    · exact .aside ((unheard_note rfl).trans (unheard_note rfl)) rfl rfl

/-- A hook comes to know who left, and the sink may have to. -/
theorem utters_tellHook (hook : RemovalHook) (r : RemovedWorker) :
    w.Utters (.tellHook hook r) (w.tellHook hook r) := by
  have hcap : (w.note (.hooked hook r)).capacities = w.capacities := by
    simp [Notice.capacity?]
  unfold tellHook
  dsimp only
  split
  · exact .exchange rfl (fun _ => rfl) hcap rfl (List.forall_mem_nil _)
  · split
    · exact .exchange rfl (fun _ => rfl) hcap rfl (by simp [Item.tellsAtOnce])
    · exact .exchange rfl (fun _ => rfl) hcap rfl (List.forall_mem_nil _)

/-- The sink comes to know orders. -/
theorem utters_handOver (orders : List RescueOrder) :
    w.Utters (.handOver orders) (w.handOver orders) := by
  have hcap (noted : Bool) : (w.note (.handedOver noted orders)).capacities = w.capacities := by
    simp [Notice.capacity?]
  unfold handOver
  split
  · exact utters_self rfl
  · exact .exchange rfl (fun _ => rfl) (hcap true) rfl (List.forall_mem_nil _)
  · split
    · exact utters_self rfl
    · dsimp only
      split
      · exact .exchange rfl (fun _ => rfl) (hcap false) rfl (List.forall_mem_nil _)
      · exact .exchange rfl (fun _ => rfl) (hcap false) rfl (by simp [Item.tellsAtOnce])

/-! ### Applications -/

theorem utters_deliver (m : Monitor) (e : Event) : w.Utters i (w.deliver m e) := by
  have hnote : w.Unheard (w.note (.delivered m e)) := unheard_note rfl
  unfold deliver
  dsimp only
  split
  · exact .aside hnote rfl rfl
  · exact .aside hnote rfl rfl
  · exact .aside (hnote.trans ⟨rfl, rfl, rfl, rfl⟩) rfl rfl
  · split
    · exact .aside hnote rfl rfl
    · exact .aside (hnote.trans ⟨rfl, rfl, rfl, rfl⟩) rfl rfl
  · refine .aside hnote rfl ?_
    split <;> rfl

theorem utters_tellRemoved (r : RemovedWorker) (last : Bool) :
    w.Utters i (w.tellRemoved r last, []) := by
  have hpool : (w.tellRemoved r last).pool = w.pool := (still_tellRemoved w r last).pool
  refine .aside ?_ hpool rfl
  unfold tellRemoved
  dsimp only
  have hheard : w.Unheard
      (if (w.listener.any fun l => !l.quiet) = true then w.note (.removed r) else w) := by
    split
    · exact unheard_note rfl
    · exact .refl w
  split
  · exact hheard.trans (unheard_noteAll_map _ fun _ => rfl)
  · exact hheard

theorem utters_offer (admits : i.admits = true) (o : Offer) (app : Option ApplicationId)
    (next : Resume) : w.Utters i (w.offer o app next) := by
  unfold offer
  split
  · exact utters_self (by simp)
  · next key _ =>
    cases app with
    | none => exact .offer admits key o.description o.adaptor (by simp)
    | some app => exact .offer admits key o.description o.adaptor rfl

theorem utters_joinNode (app : ApplicationId) (v : WorkerView) (next : Resume) :
    w.Utters i (w.joinNode app v next) := by
  unfold joinNode
  split
  · exact utters_self (by simp)
  · exact .aside ⟨rfl, by simp, rfl, rfl⟩ rfl (by simp)

theorem utters_closeSession (app : ApplicationId) : w.Utters i (w.closeSession app) := by
  unfold closeSession
  split <;> exact utters_of_eq rfl rfl rfl rfl rfl (by simp)

theorem utters_endSession (app : ApplicationId) : w.Utters i (w.endSession app) := by
  unfold endSession
  split
  · exact utters_self rfl
  · next h =>
    obtain ⟨s, hs, -⟩ := Option.bind_eq_some_iff.mp h
    exact .aside ⟨rfl, by simp [hs], rfl, rfl⟩ rfl (by simp)

theorem utters_releaseNode (key : WorkerKey) : w.Utters i (w.releaseNode key) := by
  have hr : w.Utters i ((w.releaseNode key).1, (w.releaseNode key).2 ++ []) :=
    .remove key (some .agent) rfl
  rwa [List.append_nil] at hr

theorem utters_runDeferred : w.Utters i w.runDeferred := by
  unfold runDeferred
  split <;> exact utters_of_eq rfl rfl rfl rfl rfl (by simp)

theorem utters_takeOver (admits : i.admits = true) (im : Import) :
    w.Utters i (w.takeOver im) := by
  unfold takeOver
  split
  · dsimp only
    split <;> exact utters_self (by simp)
  · dsimp only
    split
    · exact utters_self (by simp)
    · split
      · exact utters_self (by simp)
      · exact .offer admits _ _ _ rfl
  · dsimp only
    split
    · exact utters_self (by simp)
    · exact utters_of_eq rfl rfl rfl rfl rfl (by simp)

theorem utters_takenOver (name : String) (sources : Nat) (next : Resume) :
    w.Utters i (w.takenOver name sources next) := by
  refine utters_self ?_
  split <;> simp

theorem utters_prepare (admits : i.admits = true) (p : Preparation) :
    w.Utters i (w.prepare p) := by
  unfold prepare
  split
  · dsimp only
    split
    · exact utters_self (by simp)
    · exact utters_offer admits _ _ _
  · exact utters_self (by simp [beginTakeOver])
  · exact utters_submit _ _ (by simp)

/-! ### Commands -/

theorem utters_withAgent {token : Nat} {f : Sessions → Effect}
    (h : ∀ s, w.agent = some s → w.Utters i (f s)) : w.Utters i (w.withAgent token f) := by
  unfold withAgent
  split
  · exact utters_self (by simp)
  · next s hs => exact h s hs

theorem utters_withNode {token : Nat} {name : String} {app : Option ApplicationId}
    {f : WorkerKey → Effect}
    (h : ∀ s key, w.agent = some s → s.keyFor name app = .ok key → w.Utters i (f key)) :
    w.Utters i (w.withNode token name app f) := by
  refine utters_withAgent fun s hs => ?_
  split
  · exact utters_self (by simp)
  · next key hk => exact h s key hs hk

theorem utters_obeyData {token : Nat} {c : Command} {e : Effect}
    (h : w.obeyData token c = some e) : w.Utters i e := by
  cases c <;> simp only [obeyData, Option.some.injEq, reduceCtorEq] at h
  case finishCopy id data =>
    subst h
    unfold finishCopy
    split
    · exact utters_self (by simp)
    · exact utters_endCopy _ _ (by simp)
  case failCopy id data reason =>
    subst h
    unfold failCopy
    split
    · exact utters_self (by simp)
    · exact utters_endCopy _ _ (by simp)
  case link name existing =>
    subst h
    unfold link
    split <;> exact utters_of_eq rfl rfl rfl rfl rfl (by simp)
  case startCopy name target listener =>
    subst h
    unfold startCopy
    split <;> exact utters_of_eq rfl rfl rfl rfl rfl (by simp)
  case listenToCopy id data listener =>
    subst h
    unfold listenToCopy
    split <;> exact utters_of_eq rfl rfl rfl rfl rfl (by simp)
  case markObsolete name =>
    split at h <;> cases h <;> exact utters_of_eq rfl rfl rfl rfl rfl (by simp)
  all_goals
    subst h
    exact utters_of_eq rfl rfl rfl rfl rfl (by simp)

theorem utters_obeyAgent {token : Nat} {c : Command} {e : Effect}
    (h : w.obeyAgent token c = some e) : w.Utters (.obey token c) e := by
  cases c <;> simp only [obeyAgent, Option.some.injEq, reduceCtorEq] at h <;> subst h
  case offerNode o app => exact utters_withAgent fun s _ => utters_offer rfl _ _ _
  case reduceNode r =>
    refine utters_withNode fun s key hs hk => .reduce token ?_
    simp [Moment.deed, Moment.withKey, hs, hk, Except.toOption]
  case removeNode r => exact utters_withNode fun _ key _ _ => utters_answerRemoval _ _ _
  case loseNode r => exact utters_withNode fun _ key _ _ => .lose _ _ _ fun _ => rfl
  case importData r =>
    exact utters_withAgent fun s _ => utters_self (by simp [beginTakeOver])
  case tellSession app ev =>
    refine utters_withAgent fun s _ => ?_
    split <;> exact utters_self (by simp)
  case finishApplication app =>
    refine utters_withAgent fun s _ => ?_
    split <;> exact utters_self (by simp)
  case noteRescues =>
    refine utters_withAgent fun s _ => .exchange rfl (fun _ => rfl) (capacities_of_log rfl) rfl ?_
    simp [changed, Item.tellsAtOnce, Notice.capacity?]
  case dispatchRescues transfer deferred reports =>
    refine utters_withAgent fun s _ => ?_
    unfold setDispatcher
    split <;>
    · refine .exchange rfl (fun _ => rfl) (capacities_of_log rfl) rfl ?_
      simp [changed, Item.tellsAtOnce, Notice.capacity?]
  case runTask r monitor =>
    exact utters_withAgent fun s hs =>
      .aside ⟨rfl, (congrArg Option.isSome hs).symm, rfl, rfl⟩ rfl rfl
  case startSession monitor =>
    exact utters_withAgent fun s hs =>
      .aside ⟨rfl, (congrArg Option.isSome hs).symm, rfl, rfl⟩ rfl rfl
  all_goals
    refine utters_withAgent fun s hs => ?_
    split
    · exact utters_self rfl
    · exact .aside ⟨rfl, (congrArg Option.isSome hs).symm, rfl, rfl⟩ rfl rfl

theorem utters_obey (token : Nat) (c : Command) :
    w.Utters (.obey token c) (w.obey token c) := by
  have hrest : w.Utters (.obey token c) (((w.obeyData token c).or (w.obeyAgent token c)).getD
      (w.changed token)) := by
    cases he : (w.obeyData token c).or (w.obeyAgent token c) with
    | none => exact utters_self (by simp)
    | some e =>
      rcases Option.or_eq_some_iff.mp he with hd | ⟨-, ha⟩
      · exact utters_obeyData hd
      · exact utters_obeyAgent ha
  cases c
  case addWorker key offered adaptor => exact .offer rfl _ _ _ (by simp)
  case reduceWorker key c => exact .reduce _ rfl
  case removeWorker key hook => exact utters_answerRemoval _ _ _
  case loseWorker key => exact .lose _ _ _ fun h => by cases h
  case submit task monitor => exact utters_submit _ _ (by simp)
  case pass => exact .pass _
  case markRunning id => exact utters_markRunning _ _
  case complete id outputs => exact utters_complete _ _ _
  case fail id reason => exact utters_fail _ _ _
  case cancel id => exact utters_cancel _ _
  case pool o => exact .pool _ rfl
  case setListener l =>
    exact .exchange rfl (fun h => by cases h) (capacities_of_log rfl) rfl
      (by simp [obey, changed, Item.tellsAtOnce, Notice.capacity?])
  case dismissAgent =>
    exact .exchange rfl (fun _ => rfl) (capacities_of_log rfl) rfl
      (by simp [obey, changed, Item.tellsAtOnce, Notice.capacity?])
  case dispatch orders =>
    dsimp only [obey]
    split
    · exact .exchange rfl (fun _ => rfl) (capacities_of_log rfl) rfl
        (by simp [Item.tellsAtOnce, Notice.capacity?])
    · exact utters_self (by simp)
  case runDeferred => exact utters_self (by simp)
  case collectReports =>
    dsimp only [obey]
    split <;> exact utters_of_eq rfl rfl rfl rfl rfl (by simp)
  case collectMail id =>
    dsimp only [obey]
    split <;> exact utters_of_eq rfl rfl rfl rfl rfl (by simp)
  case dropReports | closeMailbox => exact utters_of_eq rfl rfl rfl rfl rfl (by simp)
  all_goals exact hrest

/-! ### Items -/

theorem listener_report (w : World) (a : List Assignment) (c : List (WorkerKey × Capacity)) :
    (w.report a c).listener = w.listener := by
  unfold report
  split
  · rfl
  · dsimp only
    split <;> simp [noteAll_eq]

theorem capacities_noteAll (w : World) (l : List Notice) :
    (w.noteAll l).capacities = w.capacities ++ l.filterMap Notice.capacity? := by
  simp [capacities, noteAll_eq]

/-- A listener that hears what is free is told it. -/
theorem capacities_report {l : Listener} (hl : w.listener = some l) (a : List Assignment)
    (c : List (WorkerKey × Capacity)) :
    (w.report a c).capacities = w.capacities ++ if l.quiet then [] else c := by
  have hnone : (a.map Notice.assigned).filterMap Notice.capacity? = [] := by
    simp [List.filterMap_map, Notice.capacity?, Function.comp_def]
  have hall : (c.map fun x => Notice.capacity x.1 x.2).filterMap Notice.capacity? = c := by
    simp [List.filterMap_map, Notice.capacity?, Function.comp_def]
  unfold report
  rw [hl]
  dsimp only
  split
  · rw [capacities_noteAll, hnone]
  · rw [capacities_noteAll, capacities_noteAll, hnone, hall, List.append_nil]

/-- A report of bindings alone says nothing of free capacity. -/
theorem utters_report (assignments : List Assignment) :
    w.Utters (.report assignments []) (w.report assignments [], []) := by
  refine .exchange rfl (fun _ => listener_report w assignments []) ?_
    (still_report w assignments []).pool (List.forall_mem_nil _)
  cases hl : w.listener with
  | none =>
    unfold report
    rw [hl]
  | some l =>
    rw [capacities_report hl, ite_self]
    exact List.append_nil _

/-- Every item that does not tell the listener itself what is free has one of the effects. -/
theorem utters_carryOut (w : World) {i : Item} (hi : i.capacities = []) :
    w.Utters i (w.carryOut i) := by
  cases i
  case obey token c => exact utters_obey token c
  case note n =>
    have hcap : n.capacity? = none := Option.toList_eq_nil_iff.mp hi
    cases ho : n.isOfficial with
    | false => exact .aside (unheard_note ho) rfl rfl
    | true =>
      refine .exchange (congrArg not ho) (fun _ => rfl) ?_ rfl (List.forall_mem_nil _)
      rw [carryOut, capacities_note, hcap]
      exact List.append_nil _
  case prompt p => exact utters_self rfl
  case deliver m e => exact utters_deliver m e
  case report a c =>
    obtain rfl : c = [] := hi
    exact utters_report a
  case tellCapacity => cases hi
  case tellRemoved r last => exact utters_tellRemoved r last
  case tellHook hook r => exact utters_tellHook hook r
  case retire key seq => exact .retire key seq
  case failBound key ids => exact .failBound key ids
  case pass token => exact .pass token
  case wake name => exact utters_wake name
  case addReplica name r token => exact utters_addReplica name r token
  case closeSession app => exact utters_closeSession app
  case endSession app => exact utters_endSession app
  case releaseNode key => exact utters_releaseNode key
  case handOver orders => exact utters_handOver orders
  case rescue b => exact utters_rescue b
  case runDeferred => exact utters_runDeferred
  case joinNode app v next => exact utters_joinNode app v next
  case takeOver im => exact utters_takeOver rfl im
  case takenOver name sources next => exact utters_takenOver name sources next
  case prepare p => exact utters_prepare rfl p

/-- What a discreet item has as its effect is discreet. -/
theorem Utters.discreet {e : Effect} (h : w.Utters i e) (hi : i.isDiscreet = true) :
    w.Discreet e := by
  have hquiet {w' : World} (hl : w'.listener = w.listener) (ha : w'.agent = w.agent)
      (hs : w'.sink = w.sink) (ho : w'.log = w.log) : w.Unheard w' := ⟨hl, ha ▸ rfl, hs, ho ▸ rfl⟩
  cases h with
  | aside unheard _ tame => exact ⟨unheard, Item.all_isMute_of_isTame tame⟩
  | exchange indiscreet _ _ _ _ => exact absurd (indiscreet.symm.trans hi) Bool.false_ne_true
  | offer _ key offered adaptor tame =>
    exact ⟨hquiet rfl rfl rfl rfl, by simp [addWorker, Item.all_isMute_of_isTame tame]⟩
  | reduce token _ =>
    unfold reduceWorker
    split <;> exact ⟨hquiet rfl rfl rfl rfl, by simp⟩
  | remove key hook tame =>
    unfold removeWorker
    split <;> exact ⟨hquiet rfl rfl rfl rfl, by simp [depart, Item.all_isMute_of_isTame tame]⟩
  | retire key seq =>
    unfold World.retire
    split <;> exact ⟨hquiet rfl rfl rfl rfl, by simp [depart]⟩
  | failBound key ids => exact ⟨hquiet rfl rfl rfl rfl, by simp [World.failBound]⟩
  | lose token key byAgent indiscreet =>
    obtain rfl : byAgent = false := by
      cases byAgent with
      | false => rfl
      | true => exact absurd ((indiscreet rfl).symm.trans hi) Bool.false_ne_true
    unfold loseWorker
    split <;> exact ⟨hquiet rfl rfl rfl rfl, by simp [depart]⟩
  | conclude x values events last tame =>
    refine ⟨hquiet rfl rfl rfl rfl, ?_⟩
    simp [World.conclude, List.all_map, Function.comp_def, Item.all_isMute_of_isTame tame]
  | pass token =>
    refine ⟨hquiet rfl rfl rfl rfl, ?_⟩
    have hinc : (w.passed.incidents.map Item.ofIncident).all Item.isMute = true :=
      Item.all_isMute_of_isTame (Item.all_isTame_map _ Item.isTame_ofIncident)
    simp only [runPass, List.all_append, Item.all_isMute_ofOutbox]
    rw [← passed, hinc]
    cases token <;> rfl
  | pool token asked =>
    refine ⟨hquiet rfl rfl rfl rfl, ?_⟩
    simp [changePool, List.all_map, Function.comp_def]

/-- Most items leave the observers alone. -/
theorem discreet_carryOut (w : World) {i : Item} (hi : i.isDiscreet = true) :
    w.Discreet (w.carryOut i) :=
  (w.utters_carryOut (Item.capacities_of_isDiscreet hi)).discreet hi

end World

/-! ## Runs from other worlds -/

namespace Machine

variable {rule : Conduct} {w₀ : World} {t : List Moment} {m : Machine}

theorem InAgreement.ask {w : World} (h : InAgreement ⟨w, []⟩) (token : Nat) {c : Command}
    (hc : c.surface ≠ .pool) : InAgreement ⟨w, [.obey token c]⟩ := by
  refine ⟨h.agrees.agenda (fun key ids => by simp) (fun key seq hj => by simp at hj), h.calm,
    fun token' c' hj => ?_⟩
  cases List.mem_singleton.mp hj
  exact hc

theorem InAgreement.answer {w : World} {p : Prompt} {rest : List Item}
    (h : InAgreement ⟨w, .prompt p :: rest⟩) {given : List (Nat × Command)}
    (hg : ∀ g ∈ given, g.2.surface ≠ .pool) :
    InAgreement ⟨w, given.map (fun g => .obey g.1 g.2) ++ rest⟩ := by
  refine ⟨h.agrees.agenda (fun key ids => by simp) (fun key seq hj => by simpa using hj), h.calm,
    fun token c hj => ?_⟩
  rcases List.mem_append.mp hj with hj | hj
  · obtain ⟨g, hmem, he⟩ := List.mem_map.mp hj
    cases he
    exact hg g hmem
  · exact h.spared token c (List.mem_cons_of_mem _ hj)

/-- Table and pool agree in runs from any world in which they do. -/
theorem Course.keepsAgreement (hw : InAgreement ⟨w₀, []⟩) (hrule : rule.SparesPool)
    (h : Course rule w₀ t m) : m.InAgreement := by
  induction h with
  | start => exact hw
  | ask token _ hc ih => exact ih.ask token (hrule.asks hc)
  | item _ ih => exact ih.step
  | answer given _ hg ih => exact ih.answer fun g hmem => hrule.answers (hg g hmem)

/-- Only commands that may be given are carried out. -/
theorem Course.allows (hw : InAgreement ⟨w₀, []⟩) (hrule : rule.SparesPool) {P : Command → Prop}
    (hasks : ∀ {c}, rule.asks c → P c) (hanswers : ∀ {c}, rule.answers c → P c)
    (h : Course rule w₀ t m) {token : Nat} {c : Command} (hj : .obey token c ∈ m.agenda) : P c := by
  induction h with
  | start => cases hj
  | ask token _ hc _ =>
    cases List.mem_singleton.mp hj
    exact hasks hc
  | item hcourse ih =>
    rcases List.mem_append.mp hj with hj | hj
    · exact absurd hj ((hcourse.keepsAgreement hw hrule).turns.not_obey token c)
    · exact ih (List.mem_cons_of_mem _ hj)
  | answer given _ hg ih =>
    rcases List.mem_append.mp hj with hj | hj
    · obtain ⟨g, hmem, he⟩ := List.mem_map.mp hj
      cases he
      exact hanswers (hg g hmem)
    · exact ih (List.mem_cons_of_mem _ hj)

end Machine

end TaskGrid
