import TaskGrid.Proofs.Calls
import TaskGrid.Proofs.Replicas

/-!
# What leaves is saved, or reported lost

When the agent gives a node up, or is asked not to use it any more, data may lose their last
replica: those of the node, and those of other nodes whose sessions close because an action failed
with the node.  With a dispatcher of rescues, each such datum is carried by one item after the
other, the hook of the worker that left, the handing over of its orders, the batch that is made of
them, until a replica is added or the report of the batch names it as lost.

* `Item.Carries`, `World.Minds`: a datum is available, or somebody is to see to it, or it was
  reported lost.
* `World.Minds.carryOut`: no item loses sight of a datum.
* `World.Completes.batch`: what becomes of a batch.
* `Machine.Course.savesData`: a request about a node, and the batches that it leads to.
-/

namespace TaskGrid

/-! ## Reports -/

/-- What is said of the orders of a list, which a transfer carries out: each is accounted for by
the next datum that was saved or by the next failure, in the order of the list. -/
inductive Transfer.Accounts (f : Transfer) : List RescueOrder → RescueReport → Prop where
  /-- There are no orders. -/
  | nil : f.Accounts [] {}
  /-- A datum was saved. -/
  | saved {o : RescueOrder} {orders : List RescueOrder} {r : Replica} {rest : RescueReport}
      (saves : f.save o.data o.source = .ok r) :
    f.Accounts orders rest →
      f.Accounts (o :: orders) { rest with saved := (o.data, r) :: rest.saved }
  /-- A datum was lost. -/
  | lost {o : RescueOrder} {orders : List RescueOrder} {reason : String} {rest : RescueReport}
      (fails : f.save o.data o.source = .error reason) :
    f.Accounts orders rest →
      f.Accounts (o :: orders)
        { rest with failures := .dataRescueFailure o.data reason :: rest.failures }

/-- What is saved and what is lost are as many as the orders. -/
theorem Transfer.Accounts.length {f : Transfer} {orders : List RescueOrder} {r : RescueReport}
    (h : f.Accounts orders r) : r.saved.length + r.failures.length = orders.length := by
  induction h with
  | nil => rfl
  | saved _ _ ih =>
    simp only [List.length_cons]
    omega
  | lost _ _ ih =>
    simp only [List.length_cons]
    omega

/-- Whether a batch ends at a moment. -/
def Moment.endsBatch (x : Moment) : Bool :=
  match x.item with
  | .rescue b => b.orders.isEmpty
  | _ => false

/-- The report that a batch puts into a channel at a moment, as it ends. -/
def Moment.reportTo? (channel : Option Nat) (x : Moment) : Option RescueReport :=
  match x.item with
  | .rescue b => if b.orders = [] ∧ b.ending = .publish channel then some b.report else none
  | _ => none

/-- The reports that batches put into a channel in the moments of a list, oldest first. -/
def reportsTo (channel : Option Nat) (t : List Moment) : List RescueReport :=
  t.reverse.filterMap (Moment.reportTo? channel)

@[simp] theorem reportsTo_nil (channel : Option Nat) : reportsTo channel [] = [] := rfl

@[simp] theorem reportsTo_append (channel : Option Nat) (t t' : List Moment) :
    reportsTo channel (t ++ t') = reportsTo channel t' ++ reportsTo channel t := by
  unfold reportsTo
  rw [List.reverse_append, List.filterMap_append]

@[simp] theorem reportsTo_singleton (channel : Option Nat) (x : Moment) :
    reportsTo channel [x] = (x.reportTo? channel).toList := by
  unfold reportsTo
  cases h : x.reportTo? channel <;> simp [h]

/-- A report names the datum of canonical name `k` as lost. -/
def RescueReport.NamesLost (r : RescueReport) (c : Catalog) (k : String) : Prop :=
  ∃ name reason, .dataRescueFailure name reason ∈ r.failures ∧ c.canonical? name = some k

/-! ## Who sees to a datum -/

/-- An order for the datum of canonical name `k`. -/
def RescueOrder.IsFor (o : RescueOrder) (c : Catalog) (k : String) : Prop :=
  c.canonical? o.data = some k

/-- A batch sees to the datum of canonical name `k`, or knows that it is lost, and will put its
report into a channel. -/
def RescueBatch.Carries (b : RescueBatch) (channel : Option Nat) (c : Catalog) (k : String) :
    Prop :=
  b.ending = .publish channel ∧ ((∃ o ∈ b.orders, o.IsFor c k) ∨ b.report.NamesLost c k)

/-- An item sees to the datum of canonical name `k`. -/
def Item.Carries (channel : Option Nat) (c : Catalog) (k : String) : Item → Prop
  | .tellHook .agent r => r.forced = false ∧ ∃ o ∈ r.rescues, o.IsFor c k
  | .handOver orders => ∃ o ∈ orders, o.IsFor c k
  | .rescue b => b.Carries channel c k
  | .addReplica name _ _ => c.canonical? name = some k
  | _ => False

/-- The datum of canonical name `k` is not lost in silence: the items of `l` are to be carried out,
the moments of `t` are over, and `later` says that batches may be put off. -/
inductive World.Minds (w : World) (later : Bool) (channel : Option Nat) (l : List Item)
    (t : List Moment) (k : String) : Prop where
  /-- It is available. -/
  | available (h : w.catalog.HasAvailable k)
  /-- An item sees to it. -/
  | carried {i : Item} (hi : i ∈ l) (h : i.Carries channel w.catalog k)
  /-- A batch that was put off sees to it. -/
  | deferred (hl : later = true) {b : RescueBatch} (hb : b ∈ w.deferred)
      (h : b.Carries channel w.catalog k)
  /-- It was reported lost. -/
  | lost {r : RescueReport} (hr : r ∈ reportsTo channel t) (h : r.NamesLost w.catalog k)

/-- Rescues are dispatched in a calm world: there is an agent with a dispatcher, and the data are
in order as far as rescues depend on it. -/
structure World.Dispatches (w : World) (later : Bool) (channel : Option Nat) : Prop where
  /-- Nothing is to disturb the pool. -/
  calm : w.disturbances = []
  /-- There is an agent. -/
  agent : w.agent.isSome = true
  /-- Its sink is a dispatcher. -/
  sink : ∃ transfer, w.sink = some (.dispatcher transfer later channel)
  /-- Data list their names. -/
  listed : w.catalog.Listed
  /-- Their marks agree with their replicas. -/
  marked : w.catalog.Marked

/-- Whether an item leaves the data as they are, unless the pool is disturbed meanwhile. -/
def Item.leavesData : Item → Bool
  | .obey .. | .retire .. | .releaseNode _ | .addReplica .. | .takeOver _ => false
  | _ => true

/-- Whether an item is a request about a node, the command to carry out the batches that were put
off, or something that these can lead to. -/
def Item.isAftermath : Item → Bool
  | .obey _ (.loseNode _) | .obey _ (.removeNode _) | .obey _ .runDeferred => true
  | .obey .. | .retire .. | .joinNode .. | .takeOver _ | .takenOver .. | .prepare _ => false
  | _ => true

section Later

variable {c c' : Catalog} {k : String} {channel : Option Nat}

/-- Names stand for what they stood for, at least. -/
def Catalog.KeepsNames (c c' : Catalog) : Prop :=
  ∀ n k, c.canonical? n = some k → c'.canonical? n = some k

theorem RescueReport.NamesLost.later {r : RescueReport} (h : r.NamesLost c k)
    (hn : c.KeepsNames c') : r.NamesLost c' k := by
  obtain ⟨name, reason, hmem, hname⟩ := h
  exact ⟨name, reason, hmem, hn _ _ hname⟩

theorem RescueBatch.Carries.later {b : RescueBatch} (h : b.Carries channel c k)
    (hn : c.KeepsNames c') : b.Carries channel c' k := by
  refine ⟨h.1, h.2.imp ?_ fun hl => hl.later hn⟩
  rintro ⟨o, ho, hk⟩
  exact ⟨o, ho, hn _ _ hk⟩

theorem Item.Carries.later {i : Item} (h : i.Carries channel c k) (hn : c.KeepsNames c') :
    i.Carries channel c' k := by
  cases i with
  | tellHook hook r =>
    cases hook with
    | caller label => exact h.elim
    | agent =>
      obtain ⟨hf, o, ho, hk⟩ := h
      exact ⟨hf, o, ho, hn _ _ hk⟩
  | handOver orders =>
    obtain ⟨o, ho, hk⟩ := h
    exact ⟨o, ho, hn _ _ hk⟩
  | rescue b => exact RescueBatch.Carries.later h hn
  | addReplica name r token => exact hn _ _ h
  | _ => exact h.elim

end Later

namespace World

variable {w : World} {i j : Item} {later : Bool} {channel : Option Nat}

/-! ## What becomes of the data -/

theorem catalog_carryOut (hcalm : w.disturbances = []) (hi : i.leavesData = true) :
    (w.carryOut i).1.catalog = w.catalog := by
  cases i with
  | obey | retire | releaseNode | addReplica | takeOver => cases hi
  | note | prompt | failBound | takenOver => rfl
  | deliver m e => exact catalog_deliver w m e
  | report a c => exact catalog_report w a c
  | tellCapacity key free => exact catalog_report w _ _
  | tellRemoved r last => exact catalog_tellRemoved w r last
  | tellHook hook r => exact catalog_tellHook w hook r
  | pass token => exact (calm_passed hcalm).2.1
  | wake name => exact catalog_wake w name
  | closeSession app => exact catalog_closeSession w app
  | endSession app => exact catalog_endSession w app
  | handOver orders => exact catalog_handOver w orders
  | rescue b => exact catalog_rescue w b
  | runDeferred => exact catalog_runDeferred w
  | joinNode app v next => exact catalog_joinNode w app v next
  | prepare p => exact catalog_prepare w p

/-- No name is taken from a datum. -/
theorem keepsNames_carryOut (hi : i.isAftermath = true) :
    w.catalog.KeepsNames (w.carryOut i).1.catalog := by
  have hedits : Catalog.Edits w.catalog (w.carryOut i).1.catalog := by
    refine edits_carryOut fun token c hc => ?_
    subst hc
    cases c <;> first | rfl | cases hi
  exact fun n k hn => hedits.canonical? hn

/-- An effect keeps a datum available, or leads to an item that sees to it. -/
def Sees (e : Effect) (channel : Option Nat) (k : String) : Prop :=
  e.1.catalog.HasAvailable k ∨ ∃ j ∈ e.2, j.Carries channel e.1.catalog k

theorem Sees.append {e : Effect} {k : String} (h : Sees e channel k) (items : List Item) :
    Sees (e.1, e.2 ++ items) channel k :=
  h.imp_right fun ⟨j, hj, hk⟩ => ⟨j, List.mem_append_left items hj, hk⟩

/-- The hook of the agent sees to what leaves with a worker that it asks to leave. -/
theorem sees_removeWorker (hw : w.catalog.Marked) {k : String} (hk : w.catalog.HasAvailable k)
    (key : WorkerKey) : Sees (w.removeWorker key (some .agent)).2 channel k := by
  unfold removeWorker
  cases hr : w.pool.requestRemoval? w.catalog key (some .agent) with
  | none => exact .inl hk
  | some r =>
    cases r with
    | draining n pool => exact .inl hk
    | left d =>
      refine (Pool.Departs.asked hr).kept hw hk |>.imp_right fun ho => ?_
      obtain ⟨v, -, -, rfl⟩ := Pool.requestRemoval?_eq_left_iff.mp hr
      refine ⟨.tellHook .agent _, List.mem_append_left _ (List.mem_map.mpr ⟨.agent, ?_, rfl⟩),
        rfl, ho⟩
      exact List.mem_append_right _ (List.mem_singleton.mpr rfl)

theorem sees_answerRemoval (hw : w.catalog.Marked) {k : String} (hk : w.catalog.HasAvailable k)
    (token : Nat) (key : WorkerKey) :
    Sees (w.answerRemoval token key (some .agent)) channel k := by
  have hr : Sees (w.removeWorker key (some .agent)).2 channel k := sees_removeWorker hw hk key
  unfold answerRemoval
  generalize w.removeWorker key (some .agent) = r at hr ⊢
  obtain ⟨status, w', items⟩ := r
  cases status <;> exact hr.append _

/-- The agent sees to what leaves with a worker that it gives up. -/
theorem sees_loseWorker (hw : w.catalog.Marked) {k : String} (hk : w.catalog.HasAvailable k)
    (token : Nat) (key : WorkerKey) : Sees (w.loseWorker token key true) channel k := by
  unfold loseWorker
  cases hl : w.pool.lose? w.catalog key with
  | none => exact .inl hk
  | some d =>
    refine (Pool.Departs.lost hl).kept hw hk |>.imp_right fun ho => ?_
    have hsome : d.removed.rescues ≠ [] := by
      obtain ⟨o, ho, -⟩ := ho
      exact List.ne_nil_of_mem ho
    refine ⟨.handOver d.removed.rescues, ?_, ho⟩
    simp [hsome]

theorem sees_withNode {k : String} (hk : w.catalog.HasAvailable k) (token : Nat) (name : String)
    (app : Option ApplicationId) {f : WorkerKey → Effect} (h : ∀ key, Sees (f key) channel k) :
    Sees (w.withNode token name app f) channel k := by
  unfold withNode withAgent
  split
  · exact .inl hk
  · dsimp only
    split
    · exact .inl hk
    · exact h _

/-- What was available stays so, or an item sees to it. -/
theorem sees_carryOut (hw : w.Dispatches later channel) (hi : i.isAftermath = true) {k : String}
    (hk : w.catalog.HasAvailable k) : Sees (w.carryOut i) channel k := by
  have hsame (hl : i.leavesData = true) : Sees (w.carryOut i) channel k := by
    left
    rw [catalog_carryOut hw.calm hl]
    exact hk
  cases i with
  | obey token c =>
    cases c with
    | loseNode r => exact sees_withNode hk token _ _ fun key => sees_loseWorker hw.marked hk _ key
    | removeNode r =>
      exact sees_withNode hk token _ _ fun key => sees_answerRemoval hw.marked hk _ key
    | runDeferred => exact .inl hk
    | _ => cases hi
  | retire | takeOver => cases hi
  | releaseNode key => exact sees_removeWorker hw.marked hk key
  | addReplica name r token =>
    obtain ⟨s, hs⟩ := Catalog.hasAvailable_iff.mp hk
    exact .inl (Catalog.hasAvailable_iff.mpr
      ⟨s, (Catalog.holds_addReplica hw.listed name r).mpr (.inl hs)⟩)
  | _ => exact hsame rfl

/-! ## What requests about nodes lead to -/

theorem mem_withNode {token : Nat} {name : String} {app : Option ApplicationId}
    {f : WorkerKey → Effect} (hj : j ∈ (w.withNode token name app f).2) :
    (∃ n, j = .note n) ∨ ∃ key, j ∈ (f key).2 := by
  unfold withNode withAgent at hj
  split at hj
  · exact .inl ⟨_, List.mem_singleton.mp hj⟩
  · dsimp only at hj
    split at hj
    · exact .inl ⟨_, List.mem_singleton.mp hj⟩
    · exact .inr ⟨_, hj⟩

/-- The request to give a node up, or to use it no more, retires nobody. -/
theorem retire_notMem_obey {token : Nat} {c : Command}
    (hi : (Item.obey token c).isAftermath = true) (key : WorkerKey) (seq : Nat) :
    .retire key seq ∉ (w.obey token c).2 := by
  intro hj
  cases c with
  | loseNode r =>
    rcases mem_withNode (show _ ∈ (w.withNode token r.name r.app _).2 from hj) with
      ⟨n, hn⟩ | ⟨k, hj⟩
    · cases hn
    · unfold loseWorker at hj
      split at hj <;> simp [depart, Item.ofHooks] at hj
  | removeNode r =>
    rcases mem_withNode (show _ ∈ (w.withNode token r.name r.app _).2 from hj) with
      ⟨n, hn⟩ | ⟨k, hj⟩
    · cases hn
    · unfold answerRemoval removeWorker at hj
      cases hr : w.pool.requestRemoval? w.catalog k (some .agent) with
      | none => simp [hr] at hj
      | some r => cases r <;> simp [hr, depart, Item.ofHooks] at hj
  | runDeferred => simp [obey] at hj
  | _ => cases hi

/-- Nobody who was asked to leave turns out to be drained because a node is requested to go. -/
theorem retire_notMem (hcalm : w.disturbances = []) (hi : i.isAftermath = true) (key : WorkerKey)
    (seq : Nat) : .retire key seq ∉ (w.carryOut i).2 := by
  intro hj
  cases i with
  | obey token c => exact retire_notMem_obey hi key seq hj
  | retire => cases hi
  | failBound k ids =>
    dsimp only [carryOut, failBound, Item.ofOutbox] at hj
    simp [w.schedule.drained_abandon k ids] at hj
  | endSession app =>
    dsimp only [carryOut] at hj
    unfold endSession at hj
    split at hj <;> simp at hj
  | closeSession app =>
    dsimp only [carryOut] at hj
    unfold closeSession at hj
    split at hj <;> simp at hj
  | runDeferred =>
    dsimp only [carryOut] at hj
    unfold runDeferred at hj
    split at hj <;> simp at hj
  | deliver m e =>
    rcases mem_deliver hj with ⟨p, hp⟩ | ⟨app, inner, -, hp | ⟨-, hp⟩⟩ <;> cases hp
  | _ =>
    -- all others are of the stage of those who retire, or below it
    rcases below_of_mem hcalm (by rintro ⟨⟩) hj with hs | ⟨hs, hsize⟩
    all_goals simp_all [Item.stage, Item.size, Item.isAftermath]

theorem isAftermath_of_mem (hcalm : w.disturbances = []) (hi : i.isAftermath = true)
    (hj : j ∈ (w.carryOut i).2) : j.isAftermath = true := by
  have hprep : i.prepares = false := by
    cases i with
    | obey token c => cases c <;> first | rfl | cases hi
    | joinNode | takeOver | takenOver | prepare => cases hi
    | _ => rfl
  have hf : j.follows false = true := hprep ▸ follows_of_mem hj
  cases j with
  | retire key seq => exact absurd hj (retire_notMem hcalm hi key seq)
  | obey | joinNode | takeOver | takenOver | prepare => cases hf
  | _ => rfl

/-! ## Dispatching goes on -/

theorem sameRescues_withNode (token : Nat) (name : String) (app : Option ApplicationId)
    {f : WorkerKey → Effect} (h : ∀ key, w.SameRescues (f key).1) :
    w.SameRescues (w.withNode token name app f).1 := by
  unfold withNode withAgent
  split
  · exact ⟨rfl, rfl, rfl, rfl⟩
  · dsimp only
    split
    · exact ⟨rfl, rfl, rfl, rfl⟩
    · exact h _

/-- A command of an aftermath leaves rescues as they are. -/
theorem sameRescues_obey {token : Nat} {c : Command}
    (hi : (Item.obey token c).isAftermath = true) : w.SameRescues (w.obey token c).1 := by
  cases c with
  | loseNode r =>
    refine sameRescues_withNode token r.name r.app fun key => ?_
    unfold loseWorker
    split <;> exact ⟨rfl, rfl, rfl, rfl⟩
  | removeNode r =>
    refine sameRescues_withNode token r.name r.app fun key => ?_
    unfold answerRemoval removeWorker
    cases w.pool.requestRemoval? w.catalog key (some .agent) with
    | none => exact ⟨rfl, rfl, rfl, rfl⟩
    | some r => cases r <;> exact ⟨rfl, rfl, rfl, rfl⟩
  | runDeferred => exact ⟨rfl, rfl, rfl, rfl⟩
  | _ => cases hi

theorem handOver_frame (w : World) (orders : List RescueOrder) :
    (w.handOver orders).1.sink = w.sink ∧ (w.handOver orders).1.agent = w.agent ∧
      (w.handOver orders).1.reports = w.reports ∧
      ∃ l, (w.handOver orders).1.deferred = w.deferred ++ l := by
  unfold handOver
  split
  · exact ⟨rfl, rfl, rfl, [], (List.append_nil _).symm⟩
  · exact ⟨rfl, rfl, rfl, [], (List.append_nil _).symm⟩
  · split
    · exact ⟨rfl, rfl, rfl, [], (List.append_nil _).symm⟩
    · dsimp only
      split
      · exact ⟨rfl, rfl, rfl, _, rfl⟩
      · exact ⟨rfl, rfl, rfl, [], (List.append_nil _).symm⟩

/-- Rescues go on being dispatched. -/
theorem Dispatches.carryOut (hw : w.Dispatches later channel) (hi : i.isAftermath = true) :
    (w.carryOut i).1.Dispatches later channel := by
  have hframe : (w.carryOut i).1.sink = w.sink ∧
      (w.carryOut i).1.agent.isSome = w.agent.isSome := by
    cases hr : i.isAboutRescues with
    | false => exact ⟨(sameRescues_carryOut hr).sink, (sameRescues_carryOut hr).agent⟩
    | true =>
      cases i with
      | obey token c => exact ⟨(sameRescues_obey hi).sink, (sameRescues_obey hi).agent⟩
      | handOver orders =>
        obtain ⟨hs, ha, -⟩ := w.handOver_frame orders
        exact ⟨hs, congrArg Option.isSome ha⟩
      | rescue b =>
        obtain ⟨hs, ha, -⟩ := w.rescue_frame b
        exact ⟨hs, congrArg Option.isSome ha⟩
      | runDeferred =>
        dsimp only [World.carryOut]
        unfold runDeferred
        split <;> exact ⟨rfl, rfl⟩
      | _ => cases hr
  have hchanges : Catalog.Changes false w.catalog (w.carryOut i).1.catalog :=
    changes_carryOut nofun
  exact
    { calm := calm_carryOut hw.calm i
      agent := hframe.2.trans hw.agent
      sink := hframe.1.symm ▸ hw.sink
      listed := (w.announces_carryOut i).listed hw.listed
      marked := hchanges.marked hw.marked }

/-! ## No item loses sight of a datum -/

variable {l : List Item} {t : List Moment} {k : String}

theorem Minds.of_sees {e : Effect} (h : Sees e channel k) :
    e.1.Minds later channel (e.2 ++ l) t k := by
  rcases h with h | ⟨j, hj, h⟩
  · exact .available h
  · exact .carried (List.mem_append_left l hj) h

/-- The dispatcher makes a batch of orders, which is carried out or put off. -/
theorem minds_handOver (hw : w.Dispatches later channel) {orders : List RescueOrder}
    {o : RescueOrder} (ho : o ∈ orders) (hk : o.IsFor w.catalog k) :
    (w.handOver orders).1.Minds later channel ((w.handOver orders).2 ++ l) t k := by
  obtain ⟨transfer, hsink⟩ := hw.sink
  have hcarries : RescueBatch.Carries { transfer, orders, ending := .publish channel } channel
      w.catalog k := ⟨rfl, .inl ⟨o, ho, hk⟩⟩
  have hne : ¬ orders.isEmpty = true := fun he => by
    rw [List.isEmpty_iff.mp he] at ho
    cases ho
  unfold handOver
  rw [hsink]
  dsimp only
  rw [if_neg hne]
  split
  · next hlater =>
    exact .deferred hlater (List.mem_append_right _ (List.mem_singleton.mpr rfl)) hcarries
  · exact .carried (List.mem_cons_self (l := l)) hcarries

/-- A batch goes on to see to its data until it is saved or lost, and reports at the end what is
lost. -/
theorem minds_rescue {b : RescueBatch} (hk : b.Carries channel w.catalog k) :
    (w.rescue b).1.Minds later channel ((w.rescue b).2 ++ l) (⟨w, .rescue b⟩ :: t) k := by
  obtain ⟨hending, hk⟩ := hk
  cases ho : b.orders with
  | nil =>
    have hlost : b.report.NamesLost w.catalog k := by
      refine hk.resolve_left ?_
      rintro ⟨o, hmem, -⟩
      rw [ho] at hmem
      cases hmem
    refine .lost (r := b.report) ?_ ((catalog_rescue w b).symm ▸ hlost)
    rw [← List.singleton_append, reportsTo_append, reportsTo_singleton]
    refine List.mem_append_right _ (Option.mem_toList.mpr ?_)
    show (if b.orders = [] ∧ b.ending = .publish channel then some b.report else none) = _
    rw [if_pos ⟨ho, hending⟩]
  | cons o rest =>
    unfold rescue
    rw [ho]
    dsimp only
    have hrest (h : ∃ o' ∈ rest, o'.IsFor w.catalog k) (report : RescueReport) :
        RescueBatch.Carries { b with orders := rest, report := report } channel w.catalog k :=
      ⟨hending, .inl h⟩
    rcases hk with ⟨o', hmem, hk⟩ | ⟨name, reason, hmem, hk⟩
    · rw [ho] at hmem
      rcases List.mem_cons.mp hmem with rfl | hmem
      · -- the order that is carried out
        cases b.transfer.save o'.data o'.source with
        | ok r => exact .carried (List.mem_cons_self (l := _ :: l)) hk
        | error reason =>
          refine .carried (List.mem_cons_self (l := l)) ⟨hending, .inr ⟨o'.data, reason, ?_, hk⟩⟩
          exact List.mem_append_right _ (List.mem_singleton.mpr rfl)
      · cases b.transfer.save o.data o.source with
        | ok r =>
          exact .carried (List.mem_cons_of_mem _ (List.mem_cons_self (l := l)))
            (hrest ⟨o', hmem, hk⟩ _)
        | error reason => exact .carried (List.mem_cons_self (l := l)) (hrest ⟨o', hmem, hk⟩ _)
    · cases b.transfer.save o.data o.source with
      | ok r =>
        exact .carried (List.mem_cons_of_mem _ (List.mem_cons_self (l := l)))
          ⟨hending, .inr ⟨name, reason, hmem, hk⟩⟩
      | error reason' =>
        exact .carried (List.mem_cons_self (l := l))
          ⟨hending, .inr ⟨name, reason, List.mem_append_left _ hmem, hk⟩⟩

/-- Whoever sees to a datum passes it on, saves it, or reports it lost. -/
theorem minds_of_carries (hw : w.Dispatches later channel)
    (hk : i.Carries channel w.catalog k) :
    (w.carryOut i).1.Minds later channel ((w.carryOut i).2 ++ l) (⟨w, i⟩ :: t) k := by
  cases i with
  | tellHook hook r =>
    cases hook with
    | caller label => exact hk.elim
    | agent =>
      obtain ⟨hforced, o, ho, hk⟩ := hk
      have hitems : (w.carryOut (.tellHook .agent r)).2 = [.handOver r.rescues] := by
        dsimp only [World.carryOut, tellHook]
        rw [if_pos (by simp [hw.agent, hforced, List.ne_nil_of_mem ho])]
      rw [hitems]
      refine .carried (List.mem_cons_self (l := l)) ⟨o, ho, ?_⟩
      rw [RescueOrder.IsFor, catalog_carryOut hw.calm rfl]
      exact hk
  | handOver orders =>
    obtain ⟨o, ho, hk⟩ := hk
    exact minds_handOver hw ho hk
  | rescue b => exact minds_rescue hk
  | addReplica name r token =>
    have hlater : (w.catalog.addReplica name r).catalog.canonical? name = some k :=
      Catalog.canonical?_addReplica hk name r
    exact .available (Catalog.hasAvailable_iff.mpr
      ⟨r, (Catalog.holds_addReplica hw.listed name r).mpr (.inr ⟨rfl, hlater⟩)⟩)
  | _ => exact hk.elim

/-- A batch that was put off waits until it is carried out. -/
theorem mem_deferred_carryOut (hi : i.isAftermath = true) {b : RescueBatch}
    (hb : b ∈ w.deferred) :
    b ∈ (w.carryOut i).1.deferred ∨ .rescue b ∈ (w.carryOut i).2 := by
  have hsame (h : (w.carryOut i).1.deferred = w.deferred) :
      b ∈ (w.carryOut i).1.deferred ∨ .rescue b ∈ (w.carryOut i).2 := .inl (h ▸ hb)
  cases hr : i.isAboutRescues with
  | false => exact hsame (sameRescues_carryOut hr).deferred
  | true =>
    cases i with
    | obey token c => exact hsame (sameRescues_obey hi).deferred
    | handOver orders =>
      obtain ⟨-, -, -, l, hl⟩ := w.handOver_frame orders
      exact .inl (hl ▸ List.mem_append_left l hb)
    | rescue b => exact hsame (w.rescue_frame b).2.2
    | runDeferred =>
      dsimp only [World.carryOut]
      unfold runDeferred
      cases hd : w.deferred with
      | nil =>
        rw [hd] at hb
        cases hb
      | cons b' rest =>
        rw [hd] at hb
        rcases List.mem_cons.mp hb with rfl | hb
        · exact .inr List.mem_cons_self
        · exact .inl hb
    | _ => cases hr

/-- No item loses sight of a datum. -/
theorem Minds.carryOut (hw : w.Dispatches later channel) (hi : i.isAftermath = true)
    (h : w.Minds later channel (i :: l) t k) :
    (w.carryOut i).1.Minds later channel ((w.carryOut i).2 ++ l) (⟨w, i⟩ :: t) k := by
  have hnames : w.catalog.KeepsNames (w.carryOut i).1.catalog := keepsNames_carryOut hi
  cases h with
  | available hk => exact .of_sees (sees_carryOut hw hi hk)
  | carried hj hk =>
    rcases List.mem_cons.mp hj with rfl | hj
    · exact minds_of_carries hw hk
    · exact .carried (List.mem_append_right _ hj) (hk.later hnames)
  | deferred hl hb hk =>
    rcases mem_deferred_carryOut hi hb with hb | hb
    · exact .deferred hl hb (hk.later hnames)
    · exact .carried (List.mem_append_left l hb) (RescueBatch.Carries.later hk hnames)
  | lost hr hk =>
    refine .lost ?_ (hk.later hnames)
    rw [← List.singleton_append, reportsTo_append]
    exact List.mem_append_left _ hr

/-- While items are carried out, with all that they lead to, no datum is lost sight of. -/
theorem Completes.minds {w' : World} {s : List Moment} (h : w.Completes l s w')
    (hw : w.Dispatches later channel) (hl : ∀ i ∈ l, i.isAftermath = true) {rest : List Item}
    (hk : w.Minds later channel (l ++ rest) t k) : w'.Minds later channel rest (s ++ t) k := by
  induction h generalizing t rest with
  | nil w => exact hk
  | @cons w v v' i l s₁ s₂ h₁ h₂ ih₁ ih₂ =>
    have hi : i.isAftermath = true := hl i List.mem_cons_self
    have hstep : ∀ j ∈ (w.carryOut i).2, j.isAftermath = true := fun j hj =>
      isAftermath_of_mem hw.calm hi hj
    have hv : v.Dispatches later channel :=
      (h₁.along (P := fun v => v.Dispatches later channel) (S := fun i => i.isAftermath = true)
        (fun hv hi => ⟨hv.carryOut hi, fun j hj => isAftermath_of_mem hv.calm hi hj⟩)
        (hw.carryOut hi) hstep).1
    have hone := ih₁ (hw.carryOut hi) hstep (hk.carryOut hw hi)
    have hrest := ih₂ hv (fun j hj => hl j (List.mem_cons_of_mem _ hj)) hone
    simpa only [List.append_assoc, List.singleton_append] using hrest

/-! ## Reports come through the channel -/

/-- An open channel takes in the reports of the batches that put theirs into it. -/
def Publishes (w : World) (t : List Moment) (w' : World) : Prop :=
  w'.reports = w.reports.map fun x => (x.1, x.2 ++ reportsTo (some x.1) t)

theorem Publishes.trans {w' w'' : World} {t t' : List Moment} (h : w.Publishes t w')
    (h' : w'.Publishes t' w'') : w.Publishes (t' ++ t) w'' := by
  unfold Publishes at h h' ⊢
  rw [h', h, Option.map_map]
  refine Option.map_congr fun x _ => ?_
  simp

theorem publishes_of_eq {x : Moment} {w' : World} (h : w'.reports = w.reports)
    (hx : ∀ channel, x.reportTo? channel = none) : w.Publishes [x] w' := by
  unfold Publishes
  rw [h]
  cases w.reports with
  | none => rfl
  | some c => simp [hx]

theorem publishes_rescue (b : RescueBatch) :
    w.Publishes [⟨w, .rescue b⟩] (w.rescue b).1 := by
  cases ho : b.orders with
  | cons o rest =>
    refine publishes_of_eq ?_ fun channel => ?_
    · unfold rescue
      rw [ho]
      dsimp only
      split <;> rfl
    · show (if b.orders = [] ∧ _ then some b.report else none) = none
      rw [if_neg fun h => by rw [ho] at h; cases h.1]
  | nil =>
    have hreport (channel : Option Nat) : Moment.reportTo? channel ⟨w, .rescue b⟩ =
        if b.ending = .publish channel then some b.report else none := by
      show (if b.orders = [] ∧ b.ending = .publish channel then some b.report else none) = _
      simp [ho]
    unfold rescue
    rw [ho]
    dsimp only
    unfold endBatch
    cases he : b.ending with
    | answer token => exact publishes_of_eq rfl fun channel => by simp [hreport, he]
    | publish channel =>
      dsimp only
      unfold Publishes publish
      simp only [reportsTo_singleton, hreport, he, BatchEnding.publish.injEq]
      have hreports : (if b.report.isClean = true then w else w.note
          (.alarm (.batchLoss b.report.saved.length b.report.failures.length))).reports =
          w.reports := by split <;> rfl
      split
      · next hnone =>
        rw [hreports] at hnone
        rw [hreports, hnone]
        rfl
      · next current waiting hsome =>
        rw [hreports] at hsome
        rw [hsome]
        split
        · next hc => simp [hc]
        · next hc => simp [hreports, hsome, hc]

theorem publishes_carryOut (hi : i.isAftermath = true) :
    w.Publishes [⟨w, i⟩] (w.carryOut i).1 := by
  cases i with
  | obey token c => exact publishes_of_eq (sameRescues_obey hi).reports fun _ => rfl
  | handOver orders => exact publishes_of_eq (w.handOver_frame orders).2.2.1 fun _ => rfl
  | rescue b => exact publishes_rescue b
  | runDeferred =>
    refine publishes_of_eq ?_ fun _ => rfl
    dsimp only [World.carryOut]
    unfold runDeferred
    split <;> rfl
  | _ => exact publishes_of_eq (sameRescues_carryOut rfl).reports fun _ => rfl

theorem Completes.publishes {w' : World} {s : List Moment} (h : w.Completes l s w')
    (hcalm : w.disturbances = []) (hl : ∀ i ∈ l, i.isAftermath = true) : w.Publishes s w' := by
  induction h with
  | nil w =>
    unfold Publishes
    simp
  | @cons w v v' i l s₁ s₂ h₁ h₂ ih₁ ih₂ =>
    have hi : i.isAftermath = true := hl i List.mem_cons_self
    have hcalm' : (w.carryOut i).1.disturbances = [] := calm_carryOut hcalm i
    have hstep : ∀ j ∈ (w.carryOut i).2, j.isAftermath = true := fun j hj =>
      isAftermath_of_mem hcalm hi hj
    have hv : v.disturbances = [] :=
      (h₁.along (P := fun v => v.disturbances = []) (S := fun _ => True)
        (fun hv _ => ⟨calm_carryOut hv _, fun _ _ => trivial⟩) hcalm' fun _ _ => trivial).1
    exact ((publishes_carryOut hi).trans (ih₁ hcalm' hstep)).trans
      (ih₂ hv fun j hj => hl j (List.mem_cons_of_mem _ hj))

/-! ## What becomes of a batch -/

/-- The moment `e` is one of `t`, and no batch ends in `t` before it. -/
def FirstEnd (t : List Moment) (e : Moment) : Prop :=
  ∃ t₂ t₁, t = t₂ ++ e :: t₁ ∧ ∀ x ∈ t₁, x.endsBatch = false

theorem FirstEnd.append {s t : List Moment} {e : Moment} (h : FirstEnd t e)
    (hs : ∀ x ∈ s, x.endsBatch = false) : FirstEnd (t ++ s) e := by
  obtain ⟨t₂, t₁, rfl, hnone⟩ := h
  refine ⟨t₂, t₁ ++ s, by rw [List.append_assoc, List.cons_append], ?_⟩
  exact List.forall_mem_append.mpr ⟨hnone, hs⟩

theorem FirstEnd.prepend {t : List Moment} {e : Moment} (h : FirstEnd t e) (s : List Moment) :
    FirstEnd (s ++ t) e := by
  obtain ⟨t₂, t₁, rfl, hnone⟩ := h
  exact ⟨s ++ t₂, t₁, (List.append_assoc s t₂ _).symm, hnone⟩

/-- In the moments `t` a batch is carried out from the world `w` on.  It ends in the world `v`, with
the report `r` on its orders; until then no batch ends, and replicas are added where the report says
that data were saved, and nowhere else. -/
structure CarriesOut (w : World) (b : RescueBatch) (t : List Moment) (r : RescueReport)
    (v : World) : Prop where
  /-- Every order is accounted for, once and in order. -/
  accounts : b.transfer.Accounts b.orders r
  /-- The batch ends with the report, after what it reported before. -/
  ends : FirstEnd t ⟨v, .rescue { b with
    orders := []
    report := ⟨b.report.saved ++ r.saved, b.report.failures ++ r.failures⟩ }⟩
  /-- Replicas are added to the data that were saved. -/
  replicas : ∀ k s, v.catalog.Holds k s ↔
    w.catalog.Holds k s ∨ ∃ name, (name, s) ∈ r.saved ∧ v.catalog.canonical? name = some k
  /-- No name is taken from a datum. -/
  names : w.catalog.KeepsNames v.catalog

/-- What low items lead to leaves the data as they are, and ends no batch. -/
theorem Completes.low {w' : World} {s : List Moment} (h : w.Completes l s w')
    (hcalm : w.disturbances = []) (hl : ∀ i ∈ l, i.stage < 4) :
    w'.disturbances = [] ∧ w'.catalog = w.catalog ∧ ∀ x ∈ s, x.endsBatch = false := by
  have hstep {v : World} {i : Item} (hv : v.disturbances = [] ∧ v.catalog = w.catalog)
      (hi : i.stage < 4) : ((v.carryOut i).1.disturbances = [] ∧
        (v.carryOut i).1.catalog = w.catalog) ∧ ∀ j ∈ (v.carryOut i).2, j.stage < 4 := by
    have hleaves : i.leavesData = true := by
      cases i <;> first | rfl | exact absurd hi (by simp [Item.stage])
    refine ⟨⟨calm_carryOut hv.1 i, (catalog_carryOut hv.1 hleaves).trans hv.2⟩, fun j hj => ?_⟩
    have hne : i ≠ .runDeferred := by
      rintro rfl
      exact absurd hi (by simp [Item.stage])
    exact Nat.lt_of_le_of_lt (below_of_mem hv.1 hne hj).stage_le hi
  obtain ⟨⟨hcalm', hsame⟩, hall⟩ := h.along
    (P := fun v => v.disturbances = [] ∧ v.catalog = w.catalog) (S := fun i => i.stage < 4)
    hstep ⟨hcalm, rfl⟩ hl
  refine ⟨hcalm', hsame, fun x hx => ?_⟩
  have hx' := (hall x hx).2
  unfold Moment.endsBatch
  split
  · next b hb =>
    rw [hb] at hx'
    exact absurd hx' (by simp [Item.stage])
  · rfl

/-- A batch that was put in motion ends, and does what its report says. -/
theorem Completes.batch {b : RescueBatch} {w' : World} {s : List Moment}
    (h : w.Completes [.rescue b] s w') (hcalm : w.disturbances = []) (hl : w.catalog.Listed) :
    ∃ r v, w.CarriesOut b s r v := by
  obtain ⟨transfer, orders, report, ending⟩ := b
  induction orders generalizing w s report with
  | nil =>
    obtain ⟨t₁, w₁, t₂, -, -, rfl⟩ := h.of_cons
    refine ⟨{}, w, .nil, ⟨t₂ ++ t₁, [], ?_, List.forall_mem_nil _⟩, fun k r => ?_,
      fun _ _ h => h⟩ <;> simp
  | cons o rest ih =>
    obtain ⟨t₁, w₁, t₂, h₁, h₂, rfl⟩ := h.of_cons
    obtain ⟨rfl, rfl⟩ := h₂.of_nil
    have hbegins : ∀ x ∈ [(⟨w, .rescue ⟨transfer, o :: rest, report, ending⟩⟩ : Moment)],
        x.endsBatch = false := by simp [Moment.endsBatch]
    dsimp only [carryOut, rescue] at h₁
    cases hsave : transfer.save o.data o.source with
    | error reason =>
      rw [hsave] at h₁
      dsimp only at h₁
      obtain ⟨r, v, hr⟩ := ih
        (w := (w.note (.saving o.data o.source)).note (.alarm (.dataLost o reason))) hcalm hl _ h₁
      refine ⟨_, v, .lost hsave hr.accounts, ?_, hr.replicas, hr.names⟩
      have hends := (hr.ends.append hbegins).prepend []
      rwa [List.append_assoc report.failures] at hends
    | ok q =>
      rw [hsave] at h₁
      dsimp only at h₁
      -- the replica is added and announced before the batch goes on
      obtain ⟨u₁, v₁, u₂, ha, hb, rfl⟩ := h₁.of_cons
      have hadd : World.carryOut (w.note (.saving o.data o.source)) (.addReplica o.data q none) =
          (w.note (.saving o.data o.source)).addReplica o.data q none := rfl
      have hlow : ∀ i ∈ (World.carryOut (w.note (.saving o.data o.source))
          (.addReplica o.data q none)).2, i.stage < 4 := by
        intro i hi
        rcases List.mem_append.mp hi with hi | hi
        · exact stage_announcements _ _ i hi
        · cases hi
      obtain ⟨hcalm₁, hcatalog, hquiet⟩ := ha.low (calm_carryOut (by exact hcalm) _) hlow
      have hcatalog : v₁.catalog = (w.catalog.addReplica o.data q).catalog := hcatalog
      have hlisted : v₁.catalog.Listed := by
        rw [hcatalog]
        exact (Catalog.announces_addReplica w.catalog o.data q).listed hl
      obtain ⟨r, v, hr⟩ := ih hcalm₁ hlisted _ hb
      have hnames : w.catalog.KeepsNames v₁.catalog := fun n k hn => by
        rw [hcatalog]
        exact Catalog.canonical?_addReplica hn o.data q
      refine ⟨_, v, .saved hsave hr.accounts, ?_, fun k s => ?_,
        fun n k hn => hr.names n k (hnames n k hn)⟩
      · have hadded : ∀ x ∈ u₁ ++ [(⟨w.note (.saving o.data o.source),
            .addReplica o.data q none⟩ : Moment)], x.endsBatch = false :=
          List.forall_mem_append.mpr ⟨hquiet, by simp [Moment.endsBatch]⟩
        have hends := ((hr.ends.append hadded).append hbegins).prepend []
        rwa [List.append_assoc report.saved] at hends
      · have hname : (w.catalog.addReplica o.data q).catalog.canonical? o.data = some k ↔
            v.catalog.canonical? o.data = some k := by
          obtain ⟨j, hj⟩ := Catalog.exists_canonical?_addReplica w.catalog o.data q
          rw [hj, hr.names _ j (hcatalog ▸ hj)]
        rw [hr.replicas, hcatalog, Catalog.holds_addReplica hl, hname]
        simp only [List.mem_cons, Prod.mk.injEq, or_and_right, exists_or, and_assoc,
          exists_eq_left, or_assoc]

end World

/-! ## Nothing is lost in silence -/

/-- What becomes of the data from the world `w` to the world `w'`, in the moments `t`, where reports
go to a channel. -/
structure SavesData (channel : Option Nat) (w : World) (t : List Moment) (w' : World) : Prop where
  /-- What was available still is, or a report names it as lost. -/
  kept : ∀ k, w.catalog.HasAvailable k → w'.catalog.HasAvailable k ∨
    ∃ r ∈ reportsTo channel t, r.NamesLost w'.catalog k
  /-- The channel takes the reports in, if it is open. -/
  published : w.Publishes t w'
  /-- Every batch accounts for its orders, and adds the replicas that it reports and no others. -/
  batches : ∀ t₂ t₀ v b, t = t₂ ++ ⟨v, .rescue b⟩ :: t₀ →
    ∃ r v', v.CarriesOut b (t₂ ++ [⟨v, .rescue b⟩]) r v'

namespace World

variable {w w' : World} {l : List Item} {t : List Moment} {later : Bool} {channel : Option Nat}

/-- Items of an aftermath lose no datum in silence, once no batch is put off any more. -/
theorem Completes.saves (h : w.Completes l t w') (hw : w.Dispatches later channel)
    (hl : ∀ i ∈ l, i.isAftermath = true) (hdone : later = true → w'.deferred = []) :
    SavesData channel w t w' where
  kept k hk := by
    have hminds : w'.Minds later channel [] (t ++ []) k := h.minds hw hl (.available hk)
    rw [List.append_nil] at hminds
    cases hminds with
    | available hk => exact .inl hk
    | carried hj _ => cases hj
    | deferred hlater hb _ =>
      rw [hdone hlater] at hb
      cases hb
    | lost hr hk => exact .inr ⟨_, hr, hk⟩
  published := h.publishes hw.calm hl
  batches t₂ t₀ v b ht := by
    have hv : v.Dispatches later channel := by
      refine ((h.along (P := fun v => v.Dispatches later channel)
        (S := fun i => i.isAftermath = true) (fun hv hi => ⟨hv.carryOut hi, fun j hj =>
          isAftermath_of_mem hv.calm hi hj⟩) hw hl).2 ⟨v, .rescue b⟩ ?_).1
      rw [ht]
      exact List.mem_append_right _ List.mem_cons_self
    obtain ⟨t₃, s, u, rfl, hu⟩ := h.within ht
    obtain ⟨r, v', hr⟩ := hu.batch hv.calm hv.listed
    refine ⟨r, v', hr.accounts, ?_, hr.replicas, hr.names⟩
    rw [List.append_assoc]
    exact hr.ends.prepend t₃

end World

namespace Machine

variable {rule : Conduct} {policy : Policy} {localNodes : List String} {withholds : Bool}
  {limit : Nat} {disturbances : List Disturbance} {t₀ : List Moment} {w : World}

/-- In every run, data list their names, and their marks agree with their replicas. -/
theorem Course.listed_marked {m : Machine}
    (h : Course rule { World.fresh policy localNodes withholds limit with disturbances } t₀ m) :
    m.world.catalog.Listed ∧ m.world.catalog.Marked := by
  induction h with
  | start => exact ⟨Catalog.listed_empty, Catalog.marked_empty⟩
  | ask _ _ _ ih => exact ih
  | answer _ _ _ ih => exact ih
  | @item t w i rest _ ih =>
    have hchanges : Catalog.Changes false w.catalog (w.carryOut i).1.catalog :=
      World.changes_carryOut nofun
    exact ⟨(w.announces_carryOut i).listed ih.1, hchanges.marked ih.2⟩

/-- In every state of a grid whose agent has a dispatcher of rescues, a request to give a node up or
to use it no more returns, and so does the command to carry out the batches that it put off, if
nobody answers meanwhile and nothing disturbs the pool.  Then no datum was lost in silence, and
every batch did what its report says.  A dispatcher that puts nothing off needs no such command. -/
theorem Course.savesData
    (h : Course rule { World.fresh policy localNodes withholds limit with disturbances } t₀ ⟨w, []⟩)
    (hcalm : w.disturbances = []) (hagent : w.agent.isSome = true) {transfer : Transfer}
    {later : Bool} {channel : Option Nat}
    (hsink : w.sink = some (.dispatcher transfer later channel)) {c : Command}
    (hc : (∃ r, c = .loseNode r) ∨ ∃ r, c = .removeNode r) (token token' : Nat) :
    ∃ t w₁ t' w₂, (asked w token c).Returns t w₁ ∧
      (asked w₁ token' .runDeferred).Returns t' w₂ ∧ w₂.deferred = [] ∧
      (later = false → SavesData channel w t w₁) ∧ SavesData channel w (t' ++ t) w₂ := by
  have hw : w.Dispatches later channel :=
    ⟨hcalm, hagent, ⟨transfer, hsink⟩, h.listed_marked.1, h.listed_marked.2⟩
  have haftermath : (Item.obey token c).isAftermath = true := by
    rcases hc with ⟨r, rfl⟩ | ⟨r, rfl⟩ <;> rfl
  obtain ⟨t, w₁, h₁, hcalm₁⟩ := w.exists_completes hcalm (.obey token c)
  -- the batches that were put off are carried out, and then the command is answered
  obtain ⟨s, v, hs, hcalmv, hnone⟩ := w₁.exists_completes_runDeferred hcalm₁
  have hanswer : v.Completes [.reply token' .done] ([] ++ [⟨v, .reply token' .done⟩])
      (v.note (.replied token' .done)) := World.Completes.single (.nil _)
  have hcall : (w₁.carryOut (.obey token' .runDeferred)).1.Completes
      (w₁.carryOut (.obey token' .runDeferred)).2 _ _ := hs.append hanswer
  obtain ⟨t', w₂, h₂, hnone₂⟩ : ∃ t' w₂, w₁.Completes [.obey token' .runDeferred] t' w₂ ∧
      w₂.deferred = [] := ⟨_, _, hcall.single, hnone⟩
  refine ⟨t, w₁, t', w₂, h₁.advance [], h₂.advance [], hnone₂, fun hlater => ?_, ?_⟩
  · exact h₁.saves hw (fun i hi => List.mem_singleton.mp hi ▸ haftermath)
      fun hl => absurd (hlater.symm.trans hl) Bool.false_ne_true
  · refine (h₁.append h₂).saves hw (List.forall_mem_append.mpr ⟨?_, ?_⟩) fun _ => hnone₂
    · exact fun i hi => List.mem_singleton.mp hi ▸ haftermath
    · exact fun i hi => List.mem_singleton.mp hi ▸ rfl

/-! ### A node with two data is lost -/

/-- A transfer that saves one datum and fails for all others. -/
def saver : Transfer where
  save data _ := if data = "d" then .ok (.ownFile "m" "/d") else .error "full"

/-- A dispatcher that puts batches off is installed, with a channel for reports. -/
def insuring : Machine :=
  asked (.fresh .fifo [] false 8) 0 (.dispatchRescues saver true true)

/-- A node is offered. -/
def stationing : Machine :=
  asked (insuring.advance 2).world 1 (.offerNode { name := "n", description := .cpus 1 } none)

/-- A datum is laid down on it. -/
def laying : Machine :=
  asked (stationing.advance 5).world 2 (.addReplica "d" (.ownFile "n" "/d"))

/-- It holds another one. -/
def relaying : Machine :=
  asked (laying.advance 3).world 3 (.addReplica "e" (.ownFile "n" "/e"))

/-- The node is given up. -/
def forsaking : Machine := asked (relaying.advance 3).world 4 (.loseNode { name := "n" })

/-- The batch that was put off is carried out. -/
def recovering : Machine := asked (forsaking.advance 6).world 5 .runDeferred

theorem course_relaying :
    Course (.lively fun _ => True) { World.fresh .fifo [] false 8 with disturbances := [] }
      (moments 3 relaying ++ (moments 3 laying ++ (moments 5 stationing ++
        (moments 2 insuring ++ [])))) ⟨(relaying.advance 3).world, []⟩ :=
  (((Course.start.call 0 2 trivial (by decide +kernel)).call 1 5 trivial
    (by decide +kernel)).call 2 3 trivial (by decide +kernel)).call 3 3 trivial
    (by decide +kernel)

/-- One datum is saved, and the other one is reported lost. -/
theorem savesData_recovering :
    (∃ t w₁ t' w₂, forsaking.Returns t w₁ ∧ (asked w₁ 5 .runDeferred).Returns t' w₂ ∧
      w₂.deferred = [] ∧ (true = false → SavesData (some 1) (relaying.advance 3).world t w₁) ∧
      SavesData (some 1) (relaying.advance 3).world (t' ++ t) w₂) ∧
    (relaying.advance 3).world.catalog.isAvailable "d" = true ∧
    (relaying.advance 3).world.catalog.isAvailable "e" = true ∧
    (recovering.advance 9).world.catalog.isAvailable "d" = true ∧
    (recovering.advance 9).world.reports = some (1,
      [⟨[("d", .ownFile "m" "/d")], [.dataRescueFailure "e" "full"]⟩]) := by
  have hsink : (relaying.advance 3).world.sink = some (.dispatcher saver true (some 1)) := rfl
  exact ⟨course_relaying.savesData rfl rfl hsink (.inl ⟨{ name := "n" }, rfl⟩) 4 5,
    by decide +kernel, by decide +kernel, by decide +kernel, by decide +kernel⟩

end Machine

end TaskGrid
