import TaskGrid.Proofs.Deeds

/-!
# What an item writes and what it leads to

The log is only ever added to, and each kind of notice is written by one kind of item.  The notices
that wait on an agenda are answers to commands, announcements of names and answers to disturbances;
all others are written at the moment at which they become true.  What else an item leads to depends
on whether it has a part in registering nodes, taking data over or preparing a task: only then does
it lead to further items of that sort, and no item leads to a command.

* `Item.Writes`: the notices that an item can write.
* `World.log_carryOut`: an item writes nothing else.
* `World.follows_of_mem`: what an item leads to.
-/

namespace TaskGrid

/-- Whether a notice answers a command, announces a name, or answers a disturbance. -/
def Notice.isRoutine : Notice → Bool
  | .replied .. | .available .. | .disturbed .. => true
  | _ => false

/-- Whether a command registers nodes, takes data over, or runs a task. -/
def Command.prepares : Command → Bool
  | .offerNode .. | .importData _ | .runTask .. => true
  | _ => false

/-- Whether an item has a part in registering nodes, taking data over, or preparing a task. -/
def Item.prepares : Item → Bool
  | .obey _ c => c.prepares
  | .joinNode .. | .takeOver _ | .takenOver .. | .prepare _ => true
  | _ => false

/-- Whether an item may be left to be carried out: routine notices may, commands never, and what
prepares only if `prep` holds. -/
def Item.follows (prep : Bool) : Item → Bool
  | .obey .. => false
  | .note n => n.isRoutine
  | .joinNode .. | .takeOver _ | .takenOver .. | .prepare _ => prep
  | _ => true

/-- Whether a reply does not say that a task was started. -/
def Reply.isOrdinary : Reply → Bool
  | .started .. => false
  | _ => true

/-- Whether a notice is routine, and does not say that a task was started. -/
def Notice.isOrdinary (n : Notice) : Bool :=
  n.isRoutine && match n with
    | .replied _ r => r.isOrdinary
    | _ => true

/-- Whether an item has no part in commands, in closing sessions, and in what prepares. -/
def Item.isOrdinary : Item → Bool
  | .obey .. | .joinNode .. | .takeOver _ | .takenOver .. | .prepare _ => false
  | .closeSession _ | .endSession _ => false
  | .note n => n.isOrdinary
  | _ => true

/-- Whether a command may lead to what is not ordinary. -/
def Command.leadsOn : Command → Bool
  | .finishApplication _ => true
  | c => c.prepares

/-- Whether an item may lead to what is not ordinary. -/
def Item.leadsOn : Item → Bool
  | .obey _ c => c.leadsOn
  | .deliver .. | .closeSession _ => true
  | i => i.prepares

/-- What goes on after a step towards running an application, or towards an answer. -/
def Item.resume? : Item → Option Resume
  | .joinNode _ _ next | .takenOver _ _ next => some next
  | .takeOver im => some im.resume
  | .prepare p => some (.prepare p)
  | _ => none

/-- What an item can write into the log. -/
def Item.Writes : Item → Notice → Prop
  | .note n', n => n = n'
  | .deliver m e, n => n = .delivered m e
  | .report a c, n => (∃ x ∈ a, n = .assigned x) ∨ ∃ x ∈ c, n = .capacity x.1 x.2
  | .tellCapacity key free, n => n = .capacity key free
  | .tellRemoved r _, n =>
    n = .removed r ∨ ∃ o ∈ r.rescues, n = .alarm (.unclaimedRescue r.key.text o)
  | .tellHook hook r, n => n = .hooked hook r
  | .handOver orders, n => ∃ noted, n = .handedOver noted orders
  | .rescue b, n => (∃ o ∈ b.orders, n = .saving o.data o.source ∨
      ∃ reason, n = .alarm (.dataLost o reason)) ∨
    n = .alarm (.batchLoss b.report.saved.length b.report.failures.length)
  | .obey _ (.finishCopy _ _), n => ∃ l data r, n = .copyEnded l data (.completed r)
  | .obey _ (.failCopy _ _ reason), n => ∃ l data, n = .copyEnded l data (.failed reason)
  | _, _ => False

/-- The end of a copy is told by the command that ends it, or it was left to be told. -/
theorem Item.Writes.of_copyEnded {i : Item} {listener data : String} {outcome : CopyOutcome}
    (h : i.Writes (.copyEnded listener data outcome)) :
    i = .note (.copyEnded listener data outcome) ∨
      ∃ token id data, i = .obey token (.finishCopy id data) ∨
        ∃ reason, i = .obey token (.failCopy id data reason) := by
  cases i with
  | note n => exact .inl (congrArg Item.note (Eq.symm h))
  | obey token c =>
    cases c with
    | finishCopy id data => exact .inr ⟨token, id, data, .inl rfl⟩
    | failCopy id data reason => exact .inr ⟨token, id, data, .inr ⟨reason, rfl⟩⟩
    | _ => cases h
  | report => rcases h with ⟨_, _, h⟩ | ⟨_, _, h⟩ <;> cases h
  | tellRemoved => rcases h with h | ⟨_, _, h⟩ <;> cases h
  | handOver =>
    obtain ⟨_, h⟩ := h
    cases h
  | rescue => rcases h with ⟨_, _, h | ⟨_, h⟩⟩ | h <;> cases h
  | _ => cases h

/-- An answer is written by the item that was left for it. -/
theorem Item.Writes.of_replied {i : Item} {token : Nat} {r : Reply}
    (h : i.Writes (.replied token r)) : i = .reply token r := by
  cases i with
  | note n => exact congrArg Item.note (Eq.symm h)
  | obey token c =>
    cases c with
    | finishCopy =>
      obtain ⟨_, _, _, h⟩ := h
      cases h
    | failCopy =>
      obtain ⟨_, _, h⟩ := h
      cases h
    | _ => cases h
  | report => rcases h with ⟨_, _, h⟩ | ⟨_, _, h⟩ <;> cases h
  | tellRemoved => rcases h with h | ⟨_, _, h⟩ <;> cases h
  | handOver =>
    obtain ⟨_, h⟩ := h
    cases h
  | rescue => rcases h with ⟨_, _, h | ⟨_, h⟩⟩ | h <;> cases h
  | _ => cases h

namespace World

variable {w w' : World} {i : Item}

/-! ## What is written -/

/-- From one world to another some notices were written, all of them such as the item writes. -/
def Wrote (w w' : World) (i : Item) : Prop :=
  ∃ l, w'.log = l ++ w.log ∧ ∀ n ∈ l, i.Writes n

theorem Wrote.of_eq (h : w'.log = w.log) : w.Wrote w' i := ⟨[], h, fun _ hn => by cases hn⟩

theorem Wrote.of_cons {n : Notice} (h : w'.log = n :: w.log) (hn : i.Writes n) : w.Wrote w' i :=
  ⟨[n], h, fun n' hn' => by
    rw [List.mem_singleton.mp hn']
    exact hn⟩

theorem Wrote.trans {w'' : World} (h : w.Wrote w' i) (h' : w'.Wrote w'' i) : w.Wrote w'' i := by
  obtain ⟨l, hl, hw⟩ := h
  obtain ⟨l', hl', hw'⟩ := h'
  refine ⟨l' ++ l, by rw [hl', hl, List.append_assoc], fun n hn => ?_⟩
  rcases List.mem_append.mp hn with hn | hn
  · exact hw' n hn
  · exact hw n hn

theorem wrote_noteAll {l : List Notice} (h : ∀ n ∈ l, i.Writes n) : w.Wrote (w.noteAll l) i :=
  ⟨l.reverse, by rw [noteAll_eq], fun n hn => h n (List.mem_reverse.mp hn)⟩

theorem wrote_report (a : List Assignment) (c : List (WorkerKey × Capacity))
    (ha : ∀ x ∈ a, i.Writes (.assigned x)) (hc : ∀ x ∈ c, i.Writes (.capacity x.1 x.2)) :
    w.Wrote (w.report a c) i := by
  have hassigned : w.Wrote (w.noteAll (a.map .assigned)) i :=
    wrote_noteAll fun n hn => by
      obtain ⟨x, hx, rfl⟩ := List.mem_map.mp hn
      exact ha x hx
  unfold report
  split
  · exact .of_eq rfl
  · dsimp only
    split
    · exact hassigned
    · refine hassigned.trans (wrote_noteAll fun n hn => ?_)
      obtain ⟨x, hx, rfl⟩ := List.mem_map.mp hn
      exact hc x hx

theorem wrote_tellRemoved (r : RemovedWorker) (last : Bool) :
    w.Wrote (w.tellRemoved r last) (.tellRemoved r last) := by
  have hremoved : w.Wrote
      (if (w.listener.any fun l => !l.quiet) = true then w.note (.removed r) else w)
      (.tellRemoved r last) := by
    split
    · exact .of_cons rfl (.inl rfl)
    · exact .of_eq rfl
  unfold tellRemoved
  dsimp only
  split
  · refine hremoved.trans (wrote_noteAll fun n hn => ?_)
    obtain ⟨o, ho, rfl⟩ := List.mem_map.mp hn
    exact .inr ⟨o, ho, rfl⟩
  · exact hremoved

theorem wrote_deliver (m : Monitor) (e : Event) : w.Wrote (w.deliver m e).1 (.deliver m e) := by
  refine .of_cons (n := .delivered m e) ?_ rfl
  unfold deliver
  dsimp only
  split <;> try rfl
  split <;> rfl

theorem wrote_tellHook (hook : RemovalHook) (r : RemovedWorker) :
    w.Wrote (w.tellHook hook r).1 (.tellHook hook r) := by
  refine .of_cons (n := .hooked hook r) ?_ rfl
  unfold tellHook
  dsimp only
  split <;> try rfl
  split <;> rfl

theorem wrote_handOver (orders : List RescueOrder) :
    w.Wrote (w.handOver orders).1 (.handOver orders) := by
  unfold handOver
  split
  · exact .of_eq rfl
  · exact .of_cons rfl ⟨_, rfl⟩
  · split
    · exact .of_eq rfl
    · dsimp only
      split <;> exact .of_cons rfl ⟨_, rfl⟩

theorem log_publish (w : World) (channel : Option Nat) (r : RescueReport) :
    (w.publish channel r).log = w.log := by
  unfold publish
  split
  · rfl
  · split <;> rfl

theorem wrote_rescue (b : RescueBatch) : w.Wrote (w.rescue b).1 (.rescue b) := by
  unfold rescue
  split
  · unfold endBatch
    split
    · exact .of_eq rfl
    · dsimp only
      split
      · exact .of_eq (log_publish _ _ _)
      · exact .of_cons (log_publish _ _ _) (.inr rfl)
  · next o rest ho =>
    have hmem : o ∈ b.orders := ho ▸ List.mem_cons_self
    dsimp only
    split
    · exact .of_cons rfl (.inl ⟨o, hmem, .inl rfl⟩)
    · next reason _ =>
      exact ⟨[_, _], rfl, fun n hn => by
        rcases List.mem_cons.mp hn with rfl | hn
        · exact .inl ⟨o, hmem, .inr ⟨reason, rfl⟩⟩
        · exact .inl ⟨o, hmem, .inl (List.mem_singleton.mp hn)⟩⟩

theorem wrote_endCopy (e : Catalog.CopyEnded) (outcome : CopyOutcome)
    (h : ∀ l, i.Writes (.copyEnded l e.canonical outcome)) : w.Wrote (w.endCopy e outcome).1 i := by
  have hwrote : World.Wrote { w with catalog := e.catalog } (w.endCopy e outcome).1 i :=
    wrote_noteAll fun n hn => by
      obtain ⟨l, -, rfl⟩ := List.mem_map.mp hn
      exact h l
  exact hwrote

/-! ## Items that write nothing -/

theorem log_offer (w : World) (o : Offer) (app : Option ApplicationId) (next : Resume) :
    (w.offer o app next).1.log = w.log := by
  unfold offer
  split
  · rfl
  · dsimp only
    split <;> rfl

theorem log_answerRemoval (w : World) (token : Nat) (key : WorkerKey) (hook : Option RemovalHook) :
    (w.answerRemoval token key hook).1.log = w.log := by
  unfold answerRemoval removeWorker
  dsimp only
  cases w.pool.requestRemoval? w.catalog key hook with
  | none => rfl
  | some r => cases r <;> rfl

theorem log_withAgent (token : Nat) {f : Sessions → Effect} (h : ∀ s, (f s).1.log = w.log) :
    (w.withAgent token f).1.log = w.log := by
  unfold withAgent
  split
  · rfl
  · exact h _

theorem log_withNode (token : Nat) (name : String) (app : Option ApplicationId)
    {f : WorkerKey → Effect} (h : ∀ key, (f key).1.log = w.log) :
    (w.withNode token name app f).1.log = w.log :=
  log_withAgent token fun s => by
    split
    · rfl
    · exact h _

theorem log_loseWorker (w : World) (token : Nat) (key : WorkerKey) (byAgent : Bool) :
    (w.loseWorker token key byAgent).1.log = w.log := by
  unfold loseWorker
  split <;> rfl

theorem log_reduceWorker (w : World) (token : Nat) (key : WorkerKey) (c : Capacity) :
    (w.reduceWorker token key c).1.log = w.log := by
  unfold reduceWorker
  split <;> rfl

theorem log_obeyAgent {token : Nat} {c : Command} {e : Effect}
    (h : w.obeyAgent token c = some e) : e.1.log = w.log := by
  cases c <;> simp only [obeyAgent, Option.some.injEq, reduceCtorEq] at h <;> subst h
  case offerNode o app => exact log_withAgent token fun _ => log_offer w o app _
  case reduceNode r => exact log_withNode token _ _ fun key => log_reduceWorker w token key _
  case removeNode r => exact log_withNode token _ _ fun key => log_answerRemoval w token key _
  case loseNode r => exact log_withNode token _ _ fun key => log_loseWorker w token key true
  case dispatchRescues transfer deferred reports =>
    refine log_withAgent token fun _ => ?_
    unfold setDispatcher changed
    split <;> rfl
  case importData | runTask | noteRescues | startSession =>
    exact log_withAgent token fun _ => rfl
  all_goals
    refine log_withAgent token fun _ => ?_
    split <;> rfl

theorem wrote_obeyData {token : Nat} {c : Command} {e : Effect}
    (h : w.obeyData token c = some e) : w.Wrote e.1 (.obey token c) := by
  cases c <;> simp only [obeyData, Option.some.injEq, reduceCtorEq] at h
  case link | startCopy | listenToCopy =>
    subst h
    refine .of_eq ?_
    first | unfold link | unfold startCopy | unfold listenToCopy
    split <;> rfl
  case finishCopy id data =>
    subst h
    unfold finishCopy
    split
    · exact .of_eq rfl
    · exact wrote_endCopy _ _ fun l => ⟨l, _, _, rfl⟩
  case failCopy id data reason =>
    subst h
    unfold failCopy
    split
    · exact .of_eq rfl
    · exact wrote_endCopy _ _ fun l => ⟨l, _, rfl⟩
  case markObsolete name => split at h <;> cases h <;> exact .of_eq rfl
  all_goals
    subst h
    exact .of_eq rfl

theorem wrote_obey (token : Nat) (c : Command) :
    w.Wrote (w.obey token c).1 (.obey token c) := by
  have hrest : w.Wrote (((w.obeyData token c).or (w.obeyAgent token c)).getD
      (w.changed token)).1 (.obey token c) := by
    cases he : (w.obeyData token c).or (w.obeyAgent token c) with
    | none => exact .of_eq rfl
    | some e =>
      rcases Option.or_eq_some_iff.mp he with hd | ⟨-, ha⟩
      · exact wrote_obeyData hd
      · exact .of_eq (log_obeyAgent ha)
  cases c
  case addWorker | submit | pass | pool | setListener | runDeferred | dropReports | dismissAgent |
    closeMailbox => exact .of_eq rfl
  case reduceWorker key c => exact .of_eq (log_reduceWorker w token key c)
  case removeWorker key hook => exact .of_eq (log_answerRemoval w token key hook)
  case loseWorker key => exact .of_eq (log_loseWorker w token key false)
  case markRunning | complete | fail | cancel | dispatch | collectReports | collectMail =>
    refine .of_eq ?_
    dsimp only [obey]
    first | unfold markRunning | unfold complete | unfold fail | unfold cancel | skip
    split <;> first | rfl | split <;> rfl
  all_goals exact hrest

/-- An item writes nothing but what it can write. -/
theorem log_carryOut (w : World) (i : Item) : w.Wrote (w.carryOut i).1 i := by
  cases i with
  | obey token c => exact wrote_obey token c
  | note n => exact .of_cons rfl rfl
  | deliver m e => exact wrote_deliver m e
  | report a c =>
    exact wrote_report a c (fun x hx => .inl ⟨x, hx, rfl⟩) fun x hx => .inr ⟨x, hx, rfl⟩
  | tellCapacity key free =>
    exact wrote_report [] [(key, free)] (List.forall_mem_nil _) fun x hx => by
      rw [List.mem_singleton.mp hx]
      rfl
  | tellRemoved r last => exact wrote_tellRemoved r last
  | tellHook hook r => exact wrote_tellHook hook r
  | handOver orders => exact wrote_handOver orders
  | rescue b => exact wrote_rescue b
  | prompt | failBound | pass | addReplica | takenOver => exact .of_eq rfl
  | wake name =>
    refine .of_eq ?_
    dsimp only [carryOut, wake]
    split <;> rfl
  | retire | closeSession | endSession | runDeferred | joinNode =>
    refine .of_eq ?_
    dsimp only [carryOut]
    first
      | unfold retire | unfold closeSession | unfold endSession | unfold runDeferred
      | unfold joinNode
    split <;> rfl
  | releaseNode key =>
    refine .of_eq ?_
    dsimp only [carryOut, releaseNode, removeWorker]
    cases w.pool.requestRemoval? w.catalog key (some .agent) with
    | none => rfl
    | some r => cases r <;> rfl
  | takeOver im =>
    refine .of_eq ?_
    dsimp only [carryOut]
    unfold takeOver
    split
    · dsimp only
      split <;> rfl
    · dsimp only
      split
      · rfl
      · split <;> rfl
    · dsimp only
      split <;> rfl
  | prepare p =>
    refine .of_eq ?_
    dsimp only [carryOut]
    unfold prepare
    split
    · dsimp only
      split
      · rfl
      · exact log_offer w _ _ _
    · rfl
    · rfl

end World

/-! ## What an item leads to -/

namespace Item

attribute [simp] follows isOrdinary Reply.isOrdinary

@[simp] theorem isOrdinary_replied (token : Nat) (r : Reply) :
    (Notice.replied token r).isOrdinary = r.isOrdinary := rfl

/-- What is ordinary may be left to be carried out by any item. -/
theorem follows_of_isOrdinary {prep : Bool} {j : Item} (h : j.isOrdinary = true) :
    j.follows prep = true := by
  cases j with
  | note n => exact (Bool.and_eq_true _ _ ▸ h).1
  | _ => first | rfl | cases h

theorem all_follows_of_isOrdinary {prep : Bool} {l : List Item} (h : l.all isOrdinary = true) :
    l.all (follows prep) = true :=
  List.all_eq_true.mpr fun j hj => follows_of_isOrdinary (List.all_eq_true.mp h j hj)

theorem all_isOrdinary_map {α : Type} {f : α → Item} (l : List α)
    (h : ∀ a, (f a).isOrdinary = true) : (l.map f).all isOrdinary = true := by
  rw [List.all_map]
  exact List.all_eq_true.mpr fun a _ => h a

@[simp] theorem all_isOrdinary_ofOutbox (o : Outbox) : (ofOutbox o).all isOrdinary = true := by
  simp [ofOutbox]

@[simp] theorem all_isOrdinary_ofHooks (d : Pool.Departure) :
    (ofHooks d).all isOrdinary = true := by
  simp [ofHooks]

theorem isOrdinary_ofIncident (i : Incident) : (ofIncident i).isOrdinary = true := by
  cases i <;> rfl

end Item

namespace World

variable {w : World}

@[simp] theorem all_isOrdinary_announcements (w : World) (names : List String) :
    (w.announcements names).all Item.isOrdinary = true := by
  unfold announcements
  simp [List.all_flatMap, Notice.isOrdinary, Notice.isRoutine]

theorem all_isOrdinary_answer (token : Option Nat) {r : Reply} (h : r.isOrdinary = true) :
    (answer token r).all Item.isOrdinary = true := Item.all_isOrdinary_map _ fun _ => h

@[simp] theorem all_isOrdinary_addReplica (w : World) (name : String) (r : Replica)
    (token : Option Nat) : (w.addReplica name r token).2.all Item.isOrdinary = true := by
  simp only [addReplica, List.all_append, all_isOrdinary_announcements, Bool.true_and]
  exact all_isOrdinary_answer token rfl

theorem all_isOrdinary_changePool (w : World) (token : Nat) (o : Pool.Operation) :
    (w.changePool token o).2.all Item.isOrdinary = true := by
  unfold changePool
  generalize w.pool.perform w.catalog o = r
  obtain ⟨answer, pool, catalog, told⟩ := r
  cases answer <;> simp

@[simp] theorem all_isOrdinary_removeWorker (w : World) (key : WorkerKey)
    (hook : Option RemovalHook) : (w.removeWorker key hook).2.2.all Item.isOrdinary = true := by
  unfold removeWorker
  split <;> simp [depart]

theorem all_isOrdinary_answerRemoval (w : World) (token : Nat) (key : WorkerKey)
    (hook : Option RemovalHook) :
    (w.answerRemoval token key hook).2.all Item.isOrdinary = true := by
  have hr : (w.removeWorker key hook).2.2.all Item.isOrdinary = true :=
    all_isOrdinary_removeWorker w key hook
  unfold answerRemoval
  generalize w.removeWorker key hook = r at hr ⊢
  obtain ⟨status, w', items⟩ := r
  cases status <;> simpa using hr

@[simp] theorem all_isOrdinary_conclude (w : World) (x : Entry) (values : List ProducedValue)
    (events : List Event) (last : ActionState) :
    (w.conclude x values events last).2.all Item.isOrdinary = true := by
  simp [conclude, List.all_map, Function.comp_def]

@[simp] theorem all_isOrdinary_runPass (w : World) (token : Option Nat) :
    (w.runPass token).2.all Item.isOrdinary = true := by
  have hinc (l : List Incident) : (l.map Item.ofIncident).all Item.isOrdinary = true :=
    Item.all_isOrdinary_map l Item.isOrdinary_ofIncident
  cases token <;> simp [runPass, hinc]

@[simp] theorem all_isOrdinary_loseWorker (w : World) (token : Nat) (key : WorkerKey)
    (byAgent : Bool) : (w.loseWorker token key byAgent).2.all Item.isOrdinary = true := by
  unfold loseWorker
  split
  · simp
  · dsimp only
    split <;> simp [depart]

theorem all_isOrdinary_withAgent {token : Nat} {f : Sessions → Effect}
    (h : ∀ s, (f s).2.all Item.isOrdinary = true) :
    (w.withAgent token f).2.all Item.isOrdinary = true := by
  unfold withAgent
  split
  · simp
  · exact h _

theorem all_isOrdinary_withNode {token : Nat} {name : String} {app : Option ApplicationId}
    {f : WorkerKey → Effect} (h : ∀ key, (f key).2.all Item.isOrdinary = true) :
    (w.withNode token name app f).2.all Item.isOrdinary = true :=
  all_isOrdinary_withAgent fun s => by
    split
    · simp
    · exact h _

theorem all_isOrdinary_obeyData {token : Nat} {c : Command} {e : Effect}
    (h : w.obeyData token c = some e) : e.2.all Item.isOrdinary = true := by
  cases c <;> simp only [obeyData, Option.some.injEq, reduceCtorEq] at h
  case link | startCopy | listenToCopy | finishCopy | failCopy =>
    subst h
    first
      | unfold link | unfold startCopy | unfold listenToCopy | unfold finishCopy | unfold failCopy
    split <;> simp [endCopy]
  case markObsolete => split at h <;> cases h <;> simp [changed]
  all_goals
    subst h
    simp [changed]

theorem all_isOrdinary_obeyAgent {token : Nat} {c : Command} {e : Effect}
    (hc : c.leadsOn = false) (h : w.obeyAgent token c = some e) :
    e.2.all Item.isOrdinary = true := by
  cases c <;> simp only [obeyAgent, Option.some.injEq, reduceCtorEq] at h <;> subst h
  case offerNode | importData | runTask | finishApplication => cases hc
  case noteRescues | startSession | dispatchRescues =>
    exact all_isOrdinary_withAgent fun _ => by simp [changed]
  case reduceNode r =>
    refine all_isOrdinary_withNode fun key => ?_
    unfold reduceWorker
    split <;> simp
  case removeNode r => exact all_isOrdinary_withNode fun key => all_isOrdinary_answerRemoval w _ _ _
  case loseNode r => exact all_isOrdinary_withNode fun key => all_isOrdinary_loseWorker w _ _ _
  all_goals
    refine all_isOrdinary_withAgent fun _ => ?_
    split <;> simp [changed]

theorem all_isOrdinary_obey (w : World) (token : Nat) {c : Command} (hc : c.leadsOn = false) :
    (w.obey token c).2.all Item.isOrdinary = true := by
  have hrest : (((w.obeyData token c).or (w.obeyAgent token c)).getD
      (w.changed token)).2.all Item.isOrdinary = true := by
    cases he : (w.obeyData token c).or (w.obeyAgent token c) with
    | none => simp [changed]
    | some e =>
      rcases Option.or_eq_some_iff.mp he with hd | ⟨-, ha⟩
      · exact all_isOrdinary_obeyData hd
      · exact all_isOrdinary_obeyAgent hc ha
  cases c
  case removeWorker key hook => exact all_isOrdinary_answerRemoval w token key hook
  case loseWorker key => exact all_isOrdinary_loseWorker w token key false
  case pass => exact all_isOrdinary_runPass w (some token)
  case pool o => exact all_isOrdinary_changePool w token o
  case reduceWorker | markRunning | fail | dispatch | collectReports | collectMail =>
    dsimp only [obey]
    first
      | unfold reduceWorker | unfold markRunning | unfold fail | skip
    split <;> simp [changed]
  case complete id outputs =>
    dsimp only [obey]
    unfold complete
    split
    · simp
    · split <;> simp
  case cancel id =>
    dsimp only [obey]
    unfold cancel
    split
    · split <;> simp
    · simp
  case addWorker | submit | setListener | runDeferred | dropReports | dismissAgent |
    closeMailbox =>
    simp [obey, changed, addWorker, submit]
  all_goals exact hrest

theorem all_isOrdinary_handOver (w : World) (orders : List RescueOrder) :
    (w.handOver orders).2.all Item.isOrdinary = true := by
  unfold handOver
  split <;> try exact rfl
  split <;> try exact rfl
  dsimp only
  split <;> rfl

theorem all_isOrdinary_rescue (w : World) (b : RescueBatch) :
    (w.rescue b).2.all Item.isOrdinary = true := by
  unfold rescue
  split
  · unfold endBatch
    split <;> simp
  · dsimp only
    split <;> simp

/-- Most items lead to what is ordinary. -/
theorem isOrdinary_of_mem {i j : Item} (hi : i.leadsOn = false) (hj : j ∈ (w.carryOut i).2) :
    j.isOrdinary = true := by
  suffices hall : (w.carryOut i).2.all Item.isOrdinary = true from List.all_eq_true.mp hall j hj
  clear hj
  cases i with
  | obey token c => exact all_isOrdinary_obey w token hi
  | tellHook hook r =>
    dsimp only [carryOut, tellHook]
    split
    · simp
    · split <;> simp
  | handOver orders => exact all_isOrdinary_handOver w orders
  | rescue b => exact all_isOrdinary_rescue w b
  | pass token => exact all_isOrdinary_runPass w token
  | releaseNode key => exact all_isOrdinary_removeWorker w key (some .agent)
  | wake name =>
    dsimp only [carryOut, wake]
    split <;> simp
  | retire | endSession | runDeferred =>
    dsimp only [carryOut]
    first
      | unfold retire | unfold endSession | unfold runDeferred
    split <;> simp [depart, List.all_map, Function.comp_def]
  | addReplica name r token => exact all_isOrdinary_addReplica w name r token
  | failBound => simp [carryOut, failBound]
  | note | prompt | report | tellCapacity | tellRemoved => rfl
  | _ => cases hi

/-! ## What goes on with a task or an answer -/

/-- What comes of a step towards running an application, or towards an answer. -/
inductive Continues (next : Resume) : List Item → Prop where
  /-- There is another step to make, after what is ordinary. -/
  | goes {l : List Item} {j : Item} (ordinary : l.all Item.isOrdinary = true)
    (step : j.resume? = some next) : Continues next (l ++ [j])
  /-- A command is answered. -/
  | answers {token : Nat} {l : List Item} (item : next = .answer token)
    (ordinary : l.all Item.isOrdinary = true) : Continues next l
  /-- The task cannot be run. -/
  | stops {p : Preparation} {f : Fault} (item : next = .prepare p) :
    Continues next [.endSession p.app, .reply p.token (.refused f)]

theorem continues_refuse (f : Fault) (next : Resume) : Continues next (refuse f next) := by
  cases next with
  | answer token => exact .answers rfl rfl
  | prepare p => exact .stops rfl

theorem continues_resume {l : List Item} (ordinary : l.all Item.isOrdinary = true) {r : Reply}
    (hr : r.isOrdinary = true) (next : Resume) : Continues next (l ++ resume r next) := by
  cases next with
  | answer token =>
    refine .answers rfl ?_
    rw [List.all_append, ordinary, Bool.true_and, resume, List.all_cons, List.all_nil,
      Bool.and_true]
    exact hr
  | prepare p => exact .goes ordinary rfl

theorem continues_offer (w : World) (o : Offer) (app : Option ApplicationId) (next : Resume) :
    Continues next (w.offer o app next).2 := by
  unfold offer
  split
  · exact continues_refuse _ next
  · cases app with
    | none => exact continues_resume (by simp [addWorker]) rfl next
    | some app => exact .goes (by simp [addWorker]) rfl

theorem continues_joinNode (w : World) (app : ApplicationId) (v : WorkerView) (next : Resume) :
    Continues next (w.joinNode app v next).2 := by
  unfold joinNode
  split
  · exact continues_refuse _ next
  · exact continues_resume (l := []) rfl rfl next

theorem continues_takenOver (w : World) (name : String) (sources : Nat) (next : Resume) :
    Continues next (w.takenOver name sources next).2 := by
  unfold takenOver
  dsimp only
  split
  · exact continues_refuse _ next
  · exact continues_resume (l := []) rfl rfl next

theorem continues_takeOver (w : World) (im : Import) :
    Continues im.resume (w.takeOver im).2 := by
  unfold takeOver
  split
  · dsimp only
    split <;> exact .goes (l := []) rfl rfl
  · dsimp only
    split
    · exact .goes (l := []) rfl rfl
    · split
      · exact .goes (l := []) rfl rfl
      · exact .goes (by simp [addWorker]) rfl
  · dsimp only
    split <;> exact .goes (by simp) rfl

/-- What goes on may be left to be carried out. -/
theorem Continues.follows {next : Resume} {l : List Item} (h : Continues next l) :
    l.all (Item.follows true) = true := by
  cases h with
  | answers _ ordinary => exact Item.all_follows_of_isOrdinary ordinary
  | stops _ => rfl
  | @goes l j ordinary step =>
    have hj : j.follows true = true := by cases j <;> first | rfl | cases step
    rw [List.all_append, Item.all_follows_of_isOrdinary ordinary, Bool.true_and, List.all_cons,
      List.all_nil, Bool.and_true]
    exact hj

theorem all_follows_prepare (w : World) (p : Preparation) :
    (w.prepare p).2.all (Item.follows true) = true := by
  unfold prepare
  split
  · dsimp only
    split
    · simp
    · exact (continues_offer w _ _ _).follows
  · simp [beginTakeOver]
  · simp [submit, Item.all_follows_of_isOrdinary, Notice.isRoutine]

theorem all_follows_obey (w : World) (token : Nat) (c : Command) :
    (w.obey token c).2.all (Item.follows c.prepares) = true := by
  by_cases hc : c.leadsOn = false
  · exact Item.all_follows_of_isOrdinary (all_isOrdinary_obey w token hc)
  · have hagent {f : Sessions → Effect} (h : ∀ s, (f s).2.all (Item.follows c.prepares) = true) :
        (w.withAgent token f).2.all (Item.follows c.prepares) = true := by
      unfold withAgent
      split
      · simp [Notice.isRoutine]
      · exact h _
    cases c with
    | offerNode o app => exact hagent fun _ => (continues_offer w o app (.answer token)).follows
    | importData r => exact hagent fun _ => rfl
    | runTask r monitor => exact hagent fun _ => rfl
    | finishApplication app =>
      refine hagent fun s => ?_
      split <;> rfl
    | _ => exact absurd rfl hc

/-- What an item leads to. -/
theorem follows_of_mem {i j : Item} (hj : j ∈ (w.carryOut i).2) :
    j.follows i.prepares = true := by
  by_cases hi : i.leadsOn = false
  · exact Item.follows_of_isOrdinary (isOrdinary_of_mem hi hj)
  · suffices hall : (w.carryOut i).2.all (Item.follows i.prepares) = true from
      List.all_eq_true.mp hall j hj
    cases i with
    | obey token c => exact all_follows_obey w token c
    | takeOver im => exact (continues_takeOver w im).follows
    | takenOver name sources next => exact (continues_takenOver w name sources next).follows
    | prepare p => exact all_follows_prepare w p
    | joinNode app v next => exact (continues_joinNode w app v next).follows
    | deliver m e =>
      dsimp only [carryOut]
      unfold deliver
      dsimp only
      split <;> try exact rfl
      · split <;> rfl
      · split <;> rfl
    | closeSession =>
      dsimp only [carryOut]
      unfold closeSession
      split <;> rfl
    | _ => exact absurd rfl hi

/-- The notices that an item leaves to be written are routine. -/
theorem isRoutine_of_mem {i : Item} {n : Notice} (hn : .note n ∈ (w.carryOut i).2) :
    n.isRoutine = true := follows_of_mem hn

/-- No item leads to a command. -/
theorem obey_not_mem {i : Item} {token : Nat} {c : Command} :
    .obey token c ∉ (w.carryOut i).2 := fun hj => by cases follows_of_mem hj

/-- Only what prepares leads to what prepares. -/
theorem prepares_of_mem {i j : Item} (hj : j ∈ (w.carryOut i).2) (hp : j.prepares = true) :
    i.prepares = true := by
  have hf := follows_of_mem hj
  cases j <;> first | exact hf | cases hp | cases hf

end World

/-- In every run, whatever notice waits on the agenda is a routine one. -/
theorem Machine.Course.isRoutine {rule : Conduct} {w₀ : World} {t : List Moment} {m : Machine}
    (h : Course rule w₀ t m) : ∀ {n}, .note n ∈ m.agenda → n.isRoutine = true := by
  induction h with
  | start => exact fun hj => by cases hj
  | ask token _ _ _ => exact fun hj => by cases List.mem_singleton.mp hj
  | item _ ih =>
    intro n hj
    rcases List.mem_append.mp hj with hj | hj
    · exact World.isRoutine_of_mem hj
    · exact ih (List.mem_cons_of_mem _ hj)
  | answer given _ _ ih =>
    intro n hj
    rcases List.mem_append.mp hj with hj | hj
    · obtain ⟨g, -, hg⟩ := List.mem_map.mp hj
      cases hg
    · exact ih (List.mem_cons_of_mem _ hj)

end TaskGrid
