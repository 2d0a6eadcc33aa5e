import TaskGrid.Proofs.Lifecycle

/-!
# Workers come and go

A key may be registered again after its worker left, so a worker is known by its registration
number.  This module says of every item what it does to the workers: which one is asked to leave,
which one leaves and who is to be told, and what stays as it is of all others.

There are five ways (`Change`): nobody comes or goes; a worker is registered; an action that ends
releases what it held; a worker that still holds something is asked to leave; or one leaves.

* `Moment.request?`, `Moment.departure?`: who is asked to leave and who leaves.
* `change_carryOut`: every item takes one of the five ways.
* `Succeeds`, `Change.succeeds`: which workers there are after an item.
* `Change.hookings`, `Change.owed`, `Change.releases_of_owes`: who is told and who is let leave.
-/

namespace TaskGrid

open Item (Tacit)

/-! ## Requests and departures -/

/-- Whether a deed can ask a worker to leave, or let it leave. -/
def Deed.parts : Deed → Bool
  | remove .. | lose _ | retire .. => true
  | _ => false

namespace Moment

/-- The worker that is asked to leave at a moment, with the hook that is given. -/
def request? (x : Moment) : Option (Worker × Option RemovalHook) :=
  match x.deed with
  | .remove key hook => (x.world.pool.worker? key).map fun v => (v, hook)
  | _ => none

/-- The key under which a worker leaves at a moment, and its departure. -/
def left? (x : Moment) : Option (WorkerKey × Pool.Departure) :=
  match x.deed with
  | .remove key hook =>
    match x.world.pool.requestRemoval? x.world.catalog key hook with
    | some (.left d) => some (key, d)
    | _ => none
  | .lose key => (x.world.pool.lose? x.world.catalog key).map fun d => (key, d)
  | .retire key seq => (x.world.pool.retire? x.world.catalog key seq).map fun d => (key, d)
  | _ => none

/-- The worker that leaves at a moment, as it was until then, and its departure. -/
def departure? (x : Moment) : Option (Worker × Pool.Departure) :=
  x.left?.bind fun r => (x.world.pool.worker? r.1).map fun v => (v, r.2)

/-- The hook that is given to a worker at a moment. -/
def hooksGiven (x : Moment) (seq : Nat) : List RemovalHook :=
  match x.request? with
  | some (v, hook) => if v.seq = seq then hook.toList else []
  | none => []

/-- Whether a worker is asked to leave at a moment. -/
def asksToLeave (x : Moment) (seq : Nat) : Bool := x.request?.any fun r => r.1.seq = seq

/-- The world after a moment. -/
def after (x : Moment) : World := (x.world.carryOut x.item).1

variable {x : Moment} {v : Worker} {seq : Nat}

theorem asksToLeave_of_none (h : x.request? = none) (seq : Nat) : x.asksToLeave seq = false := by
  rw [asksToLeave, h]
  rfl

theorem hooksGiven_of_none (h : x.request? = none) (seq : Nat) : x.hooksGiven seq = [] := by
  rw [hooksGiven, h]

theorem asksToLeave_of_some {hook : Option RemovalHook} (h : x.request? = some (v, hook)) :
    x.asksToLeave seq = decide (v.seq = seq) := by
  rw [asksToLeave, h]
  rfl

theorem hooksGiven_of_some {hook : Option RemovalHook} (h : x.request? = some (v, hook)) :
    x.hooksGiven seq = if v.seq = seq then hook.toList else [] := by
  rw [hooksGiven, h]

/-- A hook comes with a request. -/
theorem hooksGiven_of_not_asked (h : x.asksToLeave seq = false) : x.hooksGiven seq = [] := by
  cases hr : x.request? with
  | none => exact hooksGiven_of_none hr seq
  | some r =>
    rw [asksToLeave_of_some hr] at h
    rw [hooksGiven_of_some hr, if_neg (of_decide_eq_false h)]

/-- Who is asked to leave is registered. -/
theorem exists_of_asksToLeave (h : x.asksToLeave seq = true) :
    ∃ key v, x.world.pool.worker? key = some v ∧ v.seq = seq := by
  cases hr : x.request? with
  | none => rw [asksToLeave_of_none hr] at h; cases h
  | some r =>
    obtain ⟨v, hook⟩ := r
    rw [asksToLeave_of_some hr] at h
    unfold request? at hr
    split at hr
    · next key _ _ =>
      obtain ⟨u, hu, he⟩ := Option.map_eq_some_iff.mp hr
      cases he
      exact ⟨key, _, hu, of_decide_eq_true h⟩
    · cases hr

theorem request?_of_deed {d : Deed} (hd : x.deed = d) (h : ∀ key hook, d ≠ .remove key hook) :
    x.request? = none := by
  unfold request?
  split
  · next key hook he => exact absurd (hd.symm.trans he) (h key hook)
  · rfl

theorem request?_of_lose {key : WorkerKey} (hd : x.deed = .lose key) : x.request? = none :=
  request?_of_deed hd fun _ _ he => by cases he

theorem request?_of_retire {key : WorkerKey} (hd : x.deed = .retire key seq) :
    x.request? = none := request?_of_deed hd fun _ _ he => by cases he

theorem request?_of_remove {key : WorkerKey} {hook : Option RemovalHook}
    (hd : x.deed = .remove key hook) (hv : x.world.pool.worker? key = some v) :
    x.request? = some (v, hook) := by
  unfold request?
  rw [hd]
  exact congrArg (Option.map _) hv

theorem departure?_of_left?_none (h : x.left? = none) : x.departure? = none := by
  rw [departure?, h]
  rfl

theorem departure?_of_left? {key : WorkerKey} {d : Pool.Departure} (h : x.left? = some (key, d))
    (hv : x.world.pool.worker? key = some v) : x.departure? = some (v, d) := by
  rw [departure?, h]
  exact congrArg (Option.map _) hv

theorem departure?_of_deed {d : Deed} (hd : x.deed = d) (h : d.parts = false) :
    x.departure? = none := by
  refine departure?_of_left?_none ?_
  subst hd
  unfold left?
  split
  · next hd => rw [hd] at h; cases h
  · next hd => rw [hd] at h; cases h
  · next hd => rw [hd] at h; cases h
  · rfl

theorem left?_of_remove {key : WorkerKey} {hook : Option RemovalHook}
    (hd : x.deed = .remove key hook) :
    x.left? = match x.world.pool.requestRemoval? x.world.catalog key hook with
      | some (.left d) => some (key, d)
      | _ => none := by
  unfold left?
  rw [hd]

theorem left?_of_lose {key : WorkerKey} (hd : x.deed = .lose key) :
    x.left? = (x.world.pool.lose? x.world.catalog key).map fun d => (key, d) := by
  unfold left?
  rw [hd]

theorem left?_of_retire {key : WorkerKey} (hd : x.deed = .retire key seq) :
    x.left? = (x.world.pool.retire? x.world.catalog key seq).map fun d => (key, d) := by
  unfold left?
  rw [hd]

/-- Who is asked to leave and holds nothing leaves at once. -/
theorem departure?_of_request? {hook : Option RemovalHook} (h : x.request? = some (v, hook))
    (hidle : v.reservations.isEmpty = true) : ∃ d, x.departure? = some (v, d) := by
  unfold request? at h
  split at h
  · next key hook' hd =>
    obtain ⟨u, hu, he⟩ := Option.map_eq_some_iff.mp h
    cases he
    have hleft := left?_of_remove hd
    rw [Pool.requestRemoval?_eq_left_iff.mpr ⟨v, hu, hidle, rfl⟩] at hleft
    exact ⟨_, departure?_of_left? hleft hu⟩
  · cases h

/-- Who is let leave and is still there leaves. -/
theorem departure?_of_retire {key : WorkerKey} (hd : x.deed = .retire key v.seq)
    (hv : x.world.pool.worker? key = some v) : ∃ d, x.departure? = some (v, d) := by
  have hleft := left?_of_retire hd
  rw [Pool.retire?_eq_some_iff.mpr ⟨v, hv, rfl, rfl⟩] at hleft
  exact ⟨_, departure?_of_left? hleft hv⟩

end Moment

/-! ## What stays of a worker -/

/-- A worker goes on as the same: with what it is asked and told, and, if it was asked to leave,
with what it holds. -/
structure Worker.Continues (u v : Worker) : Prop where
  /-- It has the same number. -/
  seq : u.seq = v.seq
  /-- It was asked to leave or not. -/
  removing : u.removing = v.removing
  /-- The same hooks were given. -/
  hooks : u.hooks = v.hooks
  /-- If it was asked to leave, it holds the same. -/
  reservations : v.removing = true → u.reservations = v.reservations

theorem Worker.Continues.refl (v : Worker) : v.Continues v := ⟨rfl, rfl, rfl, fun _ => rfl⟩

theorem Worker.Continues.trans {u v z : Worker} (h : u.Continues v) (h' : v.Continues z) :
    u.Continues z :=
  ⟨h.seq.trans h'.seq, h.removing.trans h'.removing, h.hooks.trans h'.hooks,
    fun hr => (h.reservations (h'.removing.trans hr)).trans (h'.reservations hr)⟩

@[simp] theorem Worker.hooks_offer (w : Worker) (keeps : Bool) (offered : Capacity) :
    (w.offer keeps offered).hooks = w.hooks := by
  unfold offer grow
  split <;> rfl

namespace Pool

/-- From one pool to another, nobody comes or goes. -/
structure Carries (p q : Pool) : Prop where
  /-- Who is there was there. -/
  back : ∀ {key u}, q.worker? key = some u → ∃ v, p.worker? key = some v ∧ u.Continues v
  /-- Who was there is there. -/
  kept : ∀ {key v}, p.worker? key = some v → ∃ u, q.worker? key = some u ∧ u.seq = v.seq
  /-- The same number is next. -/
  nextSeq : q.nextSeq = p.nextSeq

variable {p q r : Pool} {key : WorkerKey} {u v : Worker}

theorem Carries.refl (p : Pool) : p.Carries p :=
  ⟨fun h => ⟨_, h, .refl _⟩, fun h => ⟨_, h, rfl⟩, rfl⟩

theorem Carries.trans (h : p.Carries q) (h' : q.Carries r) : p.Carries r := by
  refine ⟨fun hu => ?_, fun hv => ?_, h'.nextSeq.trans h.nextSeq⟩
  · obtain ⟨v, hv, hc⟩ := h'.back hu
    obtain ⟨z, hz, hc'⟩ := h.back hv
    exact ⟨z, hz, hc.trans hc'⟩
  · obtain ⟨u, hu, hs⟩ := h.kept hv
    obtain ⟨z, hz, hs'⟩ := h'.kept hu
    exact ⟨z, hz, hs'.trans hs⟩

/-- One worker is replaced by itself later. -/
theorem carries_of_insert (hv : p.worker? key = some v) (hq : q.workers = p.workers.insert key u)
    (hn : q.nextSeq = p.nextSeq) (hc : u.Continues v) : p.Carries q := by
  refine ⟨fun {k z} hz => ?_, fun {k z} hz => ?_, hn⟩
  · rw [worker?_of_insert hq] at hz
    split at hz
    · next hk => exact ⟨v, hk ▸ hv, Option.some_inj.mp hz ▸ hc⟩
    · exact ⟨z, hz, .refl z⟩
  · rw [worker?_of_insert hq]
    split
    · next hk =>
      rw [hk, hv] at hz
      exact ⟨u, rfl, Option.some_inj.mp hz ▸ hc.seq⟩
    · exact ⟨z, hz, rfl⟩

theorem carries_reduce (p : Pool) (key : WorkerKey) (c : Capacity) :
    p.Carries (p.reduce key c).2 := by
  rcases reduce_cases p key c with h | ⟨v, free, total, hv, -, -, h⟩
  · rw [h]
    exact .refl p
  · rw [h]
    exact carries_of_insert hv rfl rfl ⟨rfl, rfl, rfl, fun _ => rfl⟩

end Pool

/-- Only workers that were not asked to leave have something reserved. -/
theorem Schedule.Binds.carries {s t : Schedule} {p q : Pool} {x : Standing} {key : WorkerKey}
    {i : Implementation} (hb : s.Binds p x key i t q) : p.Carries q := by
  obtain ⟨v, v', hv, hr, hq⟩ := hb.reserved
  obtain ⟨hacc, free, -, hv'⟩ := Worker.reserve?_eq_some_iff.mp hr
  rw [hq]
  refine Pool.carries_of_insert hv rfl rfl ⟨?_, ?_, ?_, fun hrem => ?_⟩
  · rw [hv']
  · rw [hv']
  · rw [hv']
  · rw [hacc] at hrem
    cases hrem

theorem World.carries_passed {w : World} {a : List Item} (h : Agrees w.schedule w.pool a)
    (hcalm : w.disturbances = []) : w.pool.Carries w.passed.pool := by
  have hsteady := h.steady w.catalog w.scored
  rw [← hcalm] at hsteady
  exact (Pass.run_preserves w.policy hsteady (P := fun _ p => w.pool.Carries p) (.refl _)
    (fun _ hc hb => hc.trans hb.carries) fun hc _ => hc).2

/-! ## Items about workers that leave -/

namespace Item

/-- Whether an item neither tells a hook anything nor lets a drained worker leave. -/
def staysOut : Item → Bool
  | .tellHook .. => false
  | .retire .. => false
  | .note n => n.hooking?.isNone
  | _ => true

/-- All items of a list stay out of what becomes of workers that leave. -/
def StayOut (l : List Item) : Prop := ∀ j ∈ l, j.staysOut = true

/-- The records that the items of a list tell hooks. -/
def hookings (l : List Item) : List (RemovalHook × RemovedWorker) := l.filterMap hooking?

variable {j : Item} {l r : List Item}

@[simp] theorem stayOut_nil : StayOut [] := fun _ h => by cases h

@[simp] theorem stayOut_cons : StayOut (j :: l) ↔ j.staysOut = true ∧ StayOut l :=
  List.forall_mem_cons

@[simp] theorem stayOut_append : StayOut (l ++ r) ↔ StayOut l ∧ StayOut r :=
  List.forall_mem_append

theorem stayOut_map {α : Type} {f : α → Item} (l : List α) (h : ∀ a, (f a).staysOut = true) :
    StayOut (l.map f) := by
  intro j hj
  obtain ⟨a, -, rfl⟩ := List.mem_map.mp hj
  exact h a

theorem stayOut_of_tacit (h : Tacit l) : StayOut l := by
  intro j hj
  have ht := h j hj
  cases j with
  | note n =>
    rw [isTacit, Notice.isAside, Bool.and_eq_true] at ht
    exact ht.2
  | tellHook => cases ht
  | retire => cases ht
  | _ => rfl

theorem stayOut_ofOutbox {o : Outbox} (h : o.drained = []) : StayOut (ofOutbox o) := by
  unfold ofOutbox
  rw [h]
  exact stayOut_append.mpr ⟨stayOut_map _ fun _ => rfl, stayOut_cons.mpr ⟨rfl, stayOut_nil⟩⟩

/-- Whoever is drained is let leave, and nobody is told anything of it yet. -/
theorem mem_ofOutbox_retire {o : Outbox} {key : WorkerKey} {seq : Nat} :
    .retire key seq ∈ ofOutbox o ↔ (key, seq) ∈ o.drained := by
  unfold ofOutbox
  simp [eq_comm]

theorem StayOut.retire_notMem (h : StayOut l) (key : WorkerKey) (seq : Nat) :
    .retire key seq ∉ l := fun hj => by
  have hout := h _ hj
  cases hout

theorem StayOut.hookings (h : StayOut l) : hookings l = [] := by
  refine List.filterMap_eq_nil_iff.mpr fun j hj => ?_
  have hout := h j hj
  cases j with
  | note n => exact Option.isNone_iff_eq_none.mp hout
  | tellHook => cases hout
  | _ => rfl

@[simp] theorem hookings_nil : Item.hookings [] = [] := rfl

@[simp] theorem hookings_cons (j : Item) (l : List Item) :
    Item.hookings (j :: l) = j.hooking?.toList ++ Item.hookings l := by
  unfold Item.hookings
  cases h : j.hooking? <;> simp [h]

@[simp] theorem hookings_append (l r : List Item) :
    Item.hookings (l ++ r) = Item.hookings l ++ Item.hookings r := List.filterMap_append

@[simp] theorem hookings_ofOutbox (o : Outbox) : Item.hookings (ofOutbox o) = [] := by
  refine List.filterMap_eq_nil_iff.mpr fun j hj => ?_
  unfold ofOutbox at hj
  rcases List.mem_append.mp hj with hj | hj
  · obtain ⟨x, -, rfl⟩ := List.mem_map.mp hj
    rfl
  · rcases List.mem_cons.mp hj with rfl | hj
    · rfl
    · obtain ⟨x, -, rfl⟩ := List.mem_map.mp hj
      rfl

theorem hookings_ofHooks (d : Pool.Departure) :
    Item.hookings (ofHooks d) = d.hooks.map fun h => (h, d.removed) := by
  unfold Item.hookings ofHooks
  rw [List.filterMap_map]
  exact List.filterMap_eq_map.symm ▸ rfl

end Item

/-! ## What an item does to workers -/

/-- Nobody is asked to leave, and nobody leaves or is to be told of it. -/
structure Unasked (x : Moment) (items : List Item) : Prop where
  /-- Nobody is asked to leave. -/
  request : x.request? = none
  /-- Nobody leaves. -/
  departure : x.departure? = none
  /-- Nobody is told of it, or is about to leave. -/
  stayOut : Item.StayOut items

/-- What an item does to the workers, if the pool is `q` afterwards and `items` follow. -/
inductive Change (x : Moment) (q : Pool) (items : List Item) : Prop where
  /-- Nobody comes or goes. -/
  | carries (pool : x.world.pool.Carries q) (unasked : Unasked x items)
  /-- A worker is registered. -/
  | registers {key : WorkerKey} {u : Worker} (absent : x.world.pool.worker? key = none)
    (pool : q.workers = x.world.pool.workers.insert key u)
    (nextSeq : q.nextSeq = x.world.pool.nextSeq + 1) (seq : u.seq = x.world.pool.nextSeq)
    (removing : u.removing = false) (hooks : u.hooks = []) (holds : u.reservations = .empty)
    (unasked : Unasked x items)
  /-- An action ends and releases what it held; the worker may be about to leave. -/
  | releases {id : Nat} {ending : Ending} {key : WorkerKey} {v v' : Worker}
    (deed : x.deed = .conclude id ending) (live : x.world.pool.worker? key = some v)
    (release : v.release? id = some v') (pool : q.workers = x.world.pool.workers.insert key v')
    (nextSeq : q.nextSeq = x.world.pool.nextSeq) (mute : Item.hookings items = [])
    (owes : ∀ k seq, .retire k seq ∈ items ↔ v'.isDrained = true ∧ k = key ∧ seq = v'.seq)
  /-- A worker is asked to leave and still holds something. -/
  | drains {key : WorkerKey} {v : Worker} {hook : Option RemovalHook}
    (deed : x.deed = .remove key hook) (live : x.world.pool.worker? key = some v)
    (busy : v.reservations.isEmpty = false) (departure : x.departure? = none)
    (pool : q.workers = x.world.pool.workers.insert key (Pool.leaving v hook))
    (nextSeq : q.nextSeq = x.world.pool.nextSeq) (stayOut : Item.StayOut items)
  /-- A worker leaves. -/
  | leaves {key : WorkerKey} {v : Worker} {d : Pool.Departure}
    (departure : x.departure? = some (v, d)) (live : x.world.pool.worker? key = some v)
    (why : (∃ hook, x.deed = .remove key hook ∧ v.reservations.isEmpty = true) ∨
      x.deed = .lose key ∨ x.deed = .retire key v.seq)
    (record : ∃ rescues forced, d.removed = ⟨key, v.total, rescues, forced, !d.hooks.isEmpty⟩)
    (hooks : d.hooks = v.hooks ++ x.hooksGiven v.seq)
    (pool : q.workers = x.world.pool.workers.erase key)
    (nextSeq : q.nextSeq = x.world.pool.nextSeq)
    (told : Item.hookings items = d.hooks.map fun h => (h, d.removed))
    (owes : ∀ k seq, .retire k seq ∉ items)

section Change

variable {w : World} {i : Item} {a : List Item} {d : Deed} {e : World.Effect}

/-- Most deeds neither ask anybody to leave nor let anybody leave. -/
theorem unasked_of_deed {x : Moment} {items : List Item} (hd : x.deed = d)
    (hparts : d.parts = false) (hout : Item.StayOut items) : Unasked x items where
  request := Moment.request?_of_deed hd fun _ _ he => by rw [he] at hparts; cases hparts
  departure := Moment.departure?_of_deed hd hparts
  stayOut := hout

/-- An offer goes to a worker or registers one. -/
theorem change_offer {x : Moment} {items : List Item} (hun : Unasked x items) (key : WorkerKey)
    (offered : Capacity) (adaptor : Adaptor) :
    Change x (x.world.pool.add key offered adaptor).2 items := by
  have hq := Pool.workers_add x.world.pool key offered adaptor
  rcases Pool.offeredWorker_cases x.world.pool key offered adaptor with
    ⟨v, hv, he, hn⟩ | ⟨hv, he, hn⟩
  · rw [he] at hq
    exact .carries (Pool.carries_of_insert hv hq hn
      ⟨by simp, by simp, by simp, fun _ => by simp⟩) hun
  · rw [he] at hq
    exact .registers hv hq hn (by simp) (by simp) (by simp) (by simp) hun

/-- The end of an action releases what it held. -/
theorem change_conclude (ha : Agrees w.schedule w.pool a) {id : Nat} {x : Entry} {ending : Ending}
    {tail : List Item} (hd : Moment.deed ⟨w, i⟩ = .conclude id ending)
    (live : w.schedule.actions.get? id = some x) (tacit : Tacit tail) :
    Change ⟨w, i⟩ (w.conclude x ending.values (ending.events id) ending.state).1.pool
      ((w.conclude x ending.values (ending.events id) ending.state).2 ++ tail) := by
  have hnamed : x.action.id = id :=
    ha.sound.named (Schedule.standing?_eq_some_iff.mpr ⟨x, live, rfl⟩)
  have hdrained : (w.schedule.conclude w.pool x (ending.events id) ending.state).2.2.drained =
      (Schedule.releaseBinding w.pool x {}).2.drained := Schedule.drained_conclude _
  have hitems : (w.conclude x ending.values (ending.events id) ending.state).2 ++ tail =
      ending.values.map (fun v => .addReplica v.name v.location none) ++
        (Item.ofOutbox (w.schedule.conclude w.pool x (ending.events id) ending.state).2.2 ++
          .pass none :: tail) := by
    simp [World.conclude]
  have hfirst : Item.StayOut
      (ending.values.map fun v => .addReplica v.name v.location none) :=
    Item.stayOut_map _ fun _ => rfl
  have hlast : Item.StayOut (.pass none :: tail) := by
    simp [Item.stayOut_of_tacit tacit, Item.staysOut]
  rw [hitems]
  show Change _ (Schedule.releaseBinding w.pool x {}).1 _
  rcases Schedule.releaseBinding_cases w.pool x with
    ⟨hp, hnone, -⟩ | ⟨key, v, v', hb, hv, hr, hp, hsome⟩
  · rw [hp]
    refine .carries (.refl _) (unasked_of_deed hd rfl ?_)
    exact Item.stayOut_append.mpr ⟨hfirst, Item.stayOut_append.mpr
      ⟨Item.stayOut_ofOutbox (hdrained.trans hnone), hlast⟩⟩
  · rw [hnamed] at hr
    refine .releases hd hv hr (by rw [hp]) (by rw [hp]) ?_ fun k seq => ?_
    · rw [Item.hookings_append, Item.hookings_append, Item.hookings_ofOutbox, hfirst.hookings,
        hlast.hookings]
      rfl
    · rw [List.mem_append, List.mem_append, Item.mem_ofOutbox_retire, hdrained, hsome,
        or_iff_right (hfirst.retire_notMem k seq), or_iff_left (hlast.retire_notMem k seq)]
      split
      · next hdr => simp [hdr]
      · next hdr => simp [hdr]

/-- A worker leaves and its hooks are to be told its record. -/
theorem change_leaves {x : Moment} {key : WorkerKey} {v u : Worker} {forced : Bool}
    {rest : List Item}
    (hleft : x.left? = some (key, x.world.pool.depart x.world.catalog key u forced))
    (live : x.world.pool.worker? key = some v) (total : u.total = v.total)
    (hooks : u.hooks = v.hooks ++ x.hooksGiven v.seq)
    (why : (∃ hook, x.deed = .remove key hook ∧ v.reservations.isEmpty = true) ∨
      x.deed = .lose key ∨ x.deed = .retire key v.seq)
    (hrest : Item.StayOut rest) :
    Change x (x.world.pool.depart x.world.catalog key u forced).pool
      (Item.ofHooks (x.world.pool.depart x.world.catalog key u forced) ++ rest) := by
  have hgone := Moment.departure?_of_left? hleft live
  generalize hd : x.world.pool.depart x.world.catalog key u forced = d at hgone ⊢
  have hd := hd.symm
  refine .leaves hgone live why ⟨d.removed.rescues, forced, ?_⟩ (hd ▸ hooks) (hd ▸ rfl)
    (hd ▸ rfl) ?_ fun k seq hj => ?_
  · rw [← total, hd]
    rfl
  · rw [Item.hookings_append, Item.hookings_ofHooks, hrest.hookings, List.append_nil]
  · rcases List.mem_append.mp hj with hj | hj
    · obtain ⟨h, -, he⟩ := List.mem_map.mp hj
      cases he
    · exact hrest.retire_notMem k seq hj

/-- A request to leave is answered at once where nothing is held. -/
theorem change_removeWorker {key : WorkerKey} {hook : Option RemovalHook} {tail : List Item}
    (hd : Moment.deed ⟨w, i⟩ = .remove key hook) (tacit : Tacit tail) :
    Change ⟨w, i⟩ (w.removeWorker key hook).2.1.pool ((w.removeWorker key hook).2.2 ++ tail) := by
  have htail := Item.stayOut_of_tacit tacit
  have hleft := Moment.left?_of_remove hd
  unfold World.removeWorker
  cases hr : w.pool.requestRemoval? w.catalog key hook with
  | none =>
    rw [hr] at hleft
    have hrequest : Moment.request? ⟨w, i⟩ = none := by
      unfold Moment.request?
      rw [hd]
      unfold Pool.requestRemoval? at hr
      exact Option.map_eq_none_iff.mpr (Option.map_eq_none_iff.mp hr)
    exact .carries (.refl _) ⟨hrequest, Moment.departure?_of_left?_none hleft, htail⟩
  | some r =>
    rw [hr] at hleft
    cases r with
    | draining n q =>
      obtain ⟨v, hv, hbusy, -, rfl⟩ := Pool.requestRemoval?_eq_draining_iff.mp hr
      exact .drains hd hv hbusy (Moment.departure?_of_left?_none hleft) rfl rfl htail
    | left d =>
      obtain ⟨v, hv, hempty, rfl⟩ := Pool.requestRemoval?_eq_left_iff.mp hr
      have hgiven : Moment.hooksGiven ⟨w, i⟩ v.seq = hook.toList :=
        (Moment.hooksGiven_of_some (Moment.request?_of_remove hd hv)).trans (if_pos rfl)
      dsimp only [World.depart]
      rw [List.append_assoc]
      refine change_leaves (v := v) hleft hv rfl ?_ (.inl ⟨hook, hd, hempty⟩)
        (by simp [htail, Item.staysOut])
      rw [hgiven]
      rfl

/-- A lost worker leaves. -/
theorem change_lose {key : WorkerKey} {d : Pool.Departure} {tail : List Item}
    (hd : Moment.deed ⟨w, i⟩ = .lose key) (lost : w.pool.lose? w.catalog key = some d)
    (tacit : Tacit tail) :
    Change ⟨w, i⟩ (w.depart d).1.pool ((w.depart d).2 ++ .failBound key d.bound :: tail) := by
  have hleft := Moment.left?_of_lose hd
  rw [lost] at hleft
  obtain ⟨v, hv, rfl⟩ := Pool.lose?_eq_some_iff.mp lost
  refine change_leaves hleft hv rfl ?_ (.inr (.inl hd)) (by
    simp [Item.stayOut_of_tacit tacit, Item.staysOut])
  rw [Moment.hooksGiven_of_none (Moment.request?_of_lose hd), List.append_nil]

/-- A drained worker leaves, if it is still there. -/
theorem change_retire {key : WorkerKey} {seq : Nat} (hd : Moment.deed ⟨w, i⟩ = .retire key seq) :
    Change ⟨w, i⟩ (w.retire key seq).1.pool (w.retire key seq).2 := by
  have hleft := Moment.left?_of_retire hd
  have hrequest := Moment.request?_of_retire hd
  unfold World.retire
  cases hr : w.pool.retire? w.catalog key seq with
  | none =>
    rw [hr] at hleft
    exact .carries (.refl _)
      ⟨hrequest, Moment.departure?_of_left?_none hleft, Item.stayOut_nil⟩
  | some d =>
    rw [hr] at hleft
    obtain ⟨v, hv, rfl, rfl⟩ := Pool.retire?_eq_some_iff.mp hr
    refine change_leaves hleft hv rfl ?_ (.inr (.inr hd)) (by simp [Item.staysOut])
    rw [Moment.hooksGiven_of_none hrequest, List.append_nil]

/-! ### Items that leave the workers as they are -/

theorem World.stayOut_deliver (w : World) (m : Monitor) (e : Event) :
    Item.StayOut (w.deliver m e).2 := by
  intro j hj
  rcases mem_deliver hj with ⟨p, rfl⟩ | ⟨app, inner, -, rfl | ⟨-, rfl⟩⟩ <;> rfl

theorem World.stayOut_tellHook (w : World) (hook : RemovalHook) (r : RemovedWorker) :
    Item.StayOut (w.tellHook hook r).2 := by
  intro j hj
  obtain ⟨orders, rfl⟩ := mem_tellHook hj
  rfl

theorem World.pool_wake (w : World) (name : String) : (w.wake name).1.pool = w.pool := by
  unfold World.wake
  dsimp only
  split <;> rfl

/-- A pass that nothing disturbs lets nobody leave. -/
theorem World.stayOut_runPass (ha : Agrees w.schedule w.pool a) (hcalm : w.disturbances = [])
    (token : Option Nat) : Item.StayOut (w.runPass token).2 := by
  have hsteady := ha.steady w.catalog w.scored
  rw [← hcalm] at hsteady
  have hincidents := (Pass.goes_run w.policy hsteady).incidents
  have hdrained := (Pass.amid_run w.policy
    (Pass.start w.schedule w.pool w.catalog w.disturbances w.scored)).drained
  unfold World.runPass
  dsimp only
  rw [hincidents]
  exact Item.stayOut_append.mpr ⟨Item.stayOut_ofOutbox hdrained, Item.stayOut_map _ fun _ => rfl⟩

/-! ### Every item -/

/-- What an item does to the workers. -/
theorem change_carryOut (ha : Agrees w.schedule w.pool a) (hcalm : w.disturbances = [])
    (hpool : ∀ token o, i ≠ .obey token (.pool o)) :
    Change ⟨w, i⟩ (w.carryOut i).1.pool (w.carryOut i).2 := by
  have hdoes := w.does_carryOut i
  have hby := Moment.doneBy_deed ⟨w, i⟩
  generalize w.carryOut i = e at hdoes ⊢
  generalize hd : Moment.deed ⟨w, i⟩ = d at hdoes hby
  have hsame (hp : e.1.pool = w.pool) (hparts : d.parts = false) (hout : Item.StayOut e.2) :
      Change ⟨w, i⟩ e.1.pool e.2 := by
    rw [hp]
    exact .carries (.refl _) (unasked_of_deed hd hparts hout)
  cases hdoes with
  | idle still tacit _ => exact hsame still.pool rfl (Item.stayOut_of_tacit tacit)
  | note n => exact hsame rfl rfl Item.stayOut_nil
  | send m ev tacit =>
    exact hsame rfl rfl (by simp [Item.stayOut_of_tacit tacit, Item.staysOut])
  | deliver m ev => exact hsame (World.deliver_frame w m ev).2.1 rfl (w.stayOut_deliver m ev)
  | tellHook hook r =>
    exact hsame (World.tellHook_frame w hook r).2.1 rfl (w.stayOut_tellHook hook r)
  | pass token =>
    exact .carries (World.carries_passed ha hcalm)
      (unasked_of_deed hd rfl (World.stayOut_runPass ha hcalm token))
  | wake name =>
    refine hsame (World.pool_wake w name) rfl ?_
    unfold World.wake
    dsimp only
    split
    · exact Item.stayOut_nil
    · simp [Item.stayOut_ofOutbox (Schedule.drained_wake w.schedule name), Item.staysOut]
  | submit task m tacit =>
    have hout := Item.stayOut_ofOutbox (Schedule.drained_accept w.schedule w.catalog task m)
    refine hsame rfl rfl ?_
    simp [World.submit, hout, Item.stayOut_of_tacit tacit, Item.staysOut]
  | conclude ending live suits tacit => exact change_conclude ha hd live tacit
  | conclude_refused _ tacit => exact hsame rfl rfl (Item.stayOut_of_tacit tacit)
  | run marked tacit => exact hsame rfl rfl (Item.stayOut_of_tacit tacit)
  | run_refused _ tacit => exact hsame rfl rfl (Item.stayOut_of_tacit tacit)
  | fail key ids =>
    exact hsame rfl rfl (Item.stayOut_ofOutbox (Schedule.drained_abandon w.schedule key ids))
  | offer key offered adaptor tacit =>
    refine change_offer (unasked_of_deed hd rfl ?_) key offered adaptor
    simp [World.addWorker, Item.stayOut_of_tacit tacit, Item.staysOut]
  | reduce key c tacit =>
    exact .carries (Pool.carries_reduce w.pool key c)
      (unasked_of_deed hd rfl (Item.stayOut_of_tacit tacit))
  | remove key hook tacit => exact change_removeWorker hd tacit
  | lose lost tacit => exact change_lose hd lost tacit
  | lose_refused refused tacit =>
    have hleft := Moment.left?_of_lose hd
    rw [refused] at hleft
    exact .carries (.refl _) ⟨Moment.request?_of_lose hd,
      Moment.departure?_of_left?_none hleft, Item.stayOut_of_tacit tacit⟩
  | retire key seq => exact change_retire hd
  | pool token o =>
    obtain ⟨token, he⟩ := hby
    exact absurd he (hpool token o)

/-- What comes first takes one of the five ways. -/
theorem Machine.InAgreement.change {rest : List Item}
    (h : Machine.InAgreement ⟨w, i :: rest⟩) :
    Change ⟨w, i⟩ (w.carryOut i).1.pool (w.carryOut i).2 :=
  change_carryOut h.agrees h.calm fun token o hi =>
    h.spared token (.pool o) (hi ▸ List.mem_cons_self) rfl

end Change

/-! ## Which workers there are afterwards -/

/-- A worker after a moment is the worker `v` before it: it was asked to leave and has hooks as
before, but for what is asked at the moment; and once asked to leave it is given nothing. -/
structure Worker.Remains (x : Moment) (v u : Worker) : Prop where
  /-- It has the same number. -/
  seq : u.seq = v.seq
  /-- It was asked to leave before or at the moment. -/
  removing : u.removing = (v.removing || x.asksToLeave v.seq)
  /-- Its hooks were given before or at the moment. -/
  hooks : u.hooks = v.hooks ++ x.hooksGiven v.seq
  /-- If it was asked to leave before, nothing is reserved that was not. -/
  reservations : v.removing = true → ∀ {id need}, u.reservations.get? id = some need →
    v.reservations.get? id = some need

/-- A worker of the pool `q` after a moment is registered at the moment. -/
structure Worker.Arrives (x : Moment) (q : Pool) (u : Worker) : Prop where
  /-- It has the next number. -/
  seq : u.seq = x.world.pool.nextSeq
  /-- The number is not used again. -/
  lt : u.seq < q.nextSeq
  /-- It was not asked to leave. -/
  removing : u.removing = false
  /-- No hook was given. -/
  hooks : u.hooks = []

/-- The workers after a moment, if the pool is `q` then: those before but for the one that leaves,
and perhaps a new one. -/
structure Succeeds (x : Moment) (q : Pool) : Prop where
  /-- Who is there was there under the same key, or is new. -/
  back : ∀ {key u}, q.worker? key = some u →
    (∃ v, x.world.pool.worker? key = some v ∧ v.Remains x u) ∨
      x.world.pool.worker? key = none ∧ u.Arrives x q
  /-- Who was there is there, or leaves at the moment. -/
  kept : ∀ {key v}, x.world.pool.worker? key = some v →
    (∃ u, q.worker? key = some u ∧ u.seq = v.seq) ∨ ∃ d, x.departure? = some (v, d)
  /-- Who leaves was there, and nobody is there under its key. -/
  left : ∀ {v d}, x.departure? = some (v, d) → ∃ key, x.world.pool.worker? key = some v ∧
    q.worker? key = none ∧
    (∃ rescues forced, d.removed = ⟨key, v.total, rescues, forced, !d.hooks.isEmpty⟩) ∧
    d.hooks = v.hooks ++ x.hooksGiven v.seq
  /-- Numbers are not used again. -/
  nextSeq : x.world.pool.nextSeq ≤ q.nextSeq
  /-- Every number that is used at the moment is that of a worker that is there afterwards. -/
  numbered : ∀ {seq}, x.world.pool.nextSeq ≤ seq → seq < q.nextSeq →
    ∃ key u, q.worker? key = some u ∧ u.seq = seq

/-- No two workers have the same number. -/
def Pool.Distinct (p : Pool) : Prop := ∀ {k k' v v'}, p.worker? k = some v →
  p.worker? k' = some v' → v.seq = v'.seq → k = k'

namespace Change

variable {x : Moment} {q : Pool} {items : List Item}

theorem succeeds_of_carries (pool : x.world.pool.Carries q) (unasked : Unasked x items) :
    Succeeds x q where
  back hu := by
    obtain ⟨v, hv, hc⟩ := pool.back hu
    refine .inl ⟨v, hv, hc.seq, ?_, ?_, fun hr _ _ hn => hc.reservations hr ▸ hn⟩
    · rw [hc.removing, Moment.asksToLeave_of_none unasked.request, Bool.or_false]
    · rw [hc.hooks, Moment.hooksGiven_of_none unasked.request, List.append_nil]
  kept hv := .inl (pool.kept hv)
  left hd := by
    rw [unasked.departure] at hd
    cases hd
  nextSeq := Nat.le_of_eq pool.nextSeq.symm
  numbered hle hlt := by
    rw [pool.nextSeq] at hlt
    omega

/-- A worker that is neither asked to leave nor changed remains. -/
theorem remains_of_not_asked {v : Worker} (h : x.asksToLeave v.seq = false) : v.Remains x v where
  seq := rfl
  removing := by rw [h, Bool.or_false]
  hooks := by rw [Moment.hooksGiven_of_not_asked h, List.append_nil]
  reservations _ _ _ hn := hn

/-- One worker is replaced, and all others are as they were. -/
theorem succeeds_of_insert {key : WorkerKey} {v u : Worker}
    (hv : x.world.pool.worker? key = some v)
    (hq : q.workers = x.world.pool.workers.insert key u)
    (hn : q.nextSeq = x.world.pool.nextSeq) (hu : v.Remains x u) (hdep : x.departure? = none)
    (hothers : ∀ {k z}, k ≠ key → x.world.pool.worker? k = some z →
      x.asksToLeave z.seq = false) : Succeeds x q where
  back {k z} hz := by
    rw [Pool.worker?_of_insert hq] at hz
    split at hz
    · next hk => exact .inl ⟨v, hk ▸ hv, Option.some_inj.mp hz ▸ hu⟩
    · next hk => exact .inl ⟨z, hz, remains_of_not_asked (hothers hk hz)⟩
  kept {k z} hz := by
    rw [Pool.worker?_of_insert hq]
    split
    · next hk =>
      rw [hk, hv] at hz
      exact .inl ⟨u, rfl, Option.some_inj.mp hz ▸ hu.seq⟩
    · exact .inl ⟨z, hz, rfl⟩
  left hd := by
    rw [hdep] at hd
    cases hd
  nextSeq := Nat.le_of_eq hn.symm
  numbered hle hlt := by omega

/-- One worker is gone, and all others are as they were. -/
theorem succeeds_of_erase {key : WorkerKey} {v : Worker} {d : Pool.Departure}
    (hdep : x.departure? = some (v, d)) (hv : x.world.pool.worker? key = some v)
    (record : ∃ rescues forced, d.removed = ⟨key, v.total, rescues, forced, !d.hooks.isEmpty⟩)
    (hooks : d.hooks = v.hooks ++ x.hooksGiven v.seq)
    (hq : q.workers = x.world.pool.workers.erase key)
    (hn : q.nextSeq = x.world.pool.nextSeq)
    (hothers : ∀ {k z}, k ≠ key → x.world.pool.worker? k = some z →
      x.asksToLeave z.seq = false) : Succeeds x q where
  back {k z} hz := by
    rw [Pool.worker?_of_erase hq] at hz
    split at hz
    · cases hz
    · next hk => exact .inl ⟨z, hz, remains_of_not_asked (hothers hk hz)⟩
  kept {k z} hz := by
    rw [Pool.worker?_of_erase hq]
    split
    · next hk =>
      rw [hk, hv] at hz
      exact .inr ⟨d, Option.some_inj.mp hz ▸ hdep⟩
    · exact .inl ⟨z, hz, rfl⟩
  left hd := by
    rw [hdep] at hd
    cases hd
    exact ⟨key, hv, by rw [Pool.worker?_of_erase hq, if_pos rfl], record, hooks⟩
  nextSeq := Nat.le_of_eq hn.symm
  numbered hle hlt := by omega

/-- Which workers there are after an item. -/
theorem succeeds (h : Change x q items) (hdist : x.world.pool.Distinct) : Succeeds x q := by
  -- nobody but the worker under the key of the request is asked to leave
  have hothers {key : WorkerKey} {v : Worker} {hook : Option RemovalHook}
      (hd : x.deed = .remove key hook) (hv : x.world.pool.worker? key = some v) {k : WorkerKey}
      {z : Worker} (hk : k ≠ key) (hz : x.world.pool.worker? k = some z) :
      x.asksToLeave z.seq = false := by
    rw [Moment.asksToLeave_of_some (Moment.request?_of_remove hd hv)]
    exact decide_eq_false fun he => hk (hdist hz hv he.symm)
  cases h with
  | carries pool unasked => exact succeeds_of_carries pool unasked
  | @registers key u absent pool nextSeq seq removing hooks holds unasked =>
    refine ⟨fun {k z} hz => ?_, fun {k z} hz => ?_, fun hd => ?_, by omega, fun hle hlt => ?_⟩
    · rw [Pool.worker?_of_insert pool] at hz
      split at hz
      · next hk =>
        obtain rfl := Option.some_inj.mp hz
        exact .inr ⟨hk ▸ absent, seq, by omega, removing, hooks⟩
      · exact .inl ⟨z, hz, remains_of_not_asked
          (Moment.asksToLeave_of_none unasked.request _)⟩
    · refine .inl ⟨z, ?_, rfl⟩
      rw [Pool.worker?_of_insert pool, if_neg fun hk => ?_]
      · exact hz
      · rw [hk, absent] at hz
        cases hz
    · rw [unasked.departure] at hd
      cases hd
    · exact ⟨key, u, by rw [Pool.worker?_of_insert pool, if_pos rfl], by omega⟩
  | @releases id ending key v v' deed live release pool nextSeq mute owes =>
    have hrequest := Moment.request?_of_deed deed fun _ _ he => by cases he
    obtain ⟨need, -, rfl⟩ := Worker.release?_eq_some_iff.mp release
    refine succeeds_of_insert live pool nextSeq ⟨rfl, ?_, ?_, fun _ _ _ hn => ?_⟩
      (Moment.departure?_of_deed deed rfl) fun _ _ => Moment.asksToLeave_of_none hrequest _
    · rw [Moment.asksToLeave_of_none hrequest, Bool.or_false]
    · rw [Moment.hooksGiven_of_none hrequest, List.append_nil]
    · rw [SortedMap.get?_erase] at hn
      split at hn
      · cases hn
      · exact hn
  | @drains key v hook deed live busy departure pool nextSeq stayOut =>
    have hrequest := Moment.request?_of_remove deed live
    refine succeeds_of_insert live pool nextSeq ⟨rfl, ?_, ?_, fun _ _ _ hn => hn⟩ departure
      (hothers deed live)
    · rw [Moment.asksToLeave_of_some hrequest, decide_eq_true rfl, Bool.or_true]
      rfl
    · rw [Moment.hooksGiven_of_some hrequest, if_pos rfl]
      rfl
  | @leaves key v d departure live why record hooks pool nextSeq told owes =>
    refine succeeds_of_erase departure live record hooks pool nextSeq ?_
    rcases why with ⟨hook, hd, -⟩ | hd | hd
    · exact hothers hd live
    · exact fun _ _ => Moment.asksToLeave_of_none (Moment.request?_of_lose hd) _
    · exact fun _ _ => Moment.asksToLeave_of_none (Moment.request?_of_retire hd) _

/-- At most one worker is new. -/
theorem eq_of_new (h : Change x q items) {k k' : WorkerKey} {u u' : Worker}
    (hnone : x.world.pool.worker? k = none) (hu : q.worker? k = some u)
    (hnone' : x.world.pool.worker? k' = none) (hu' : q.worker? k' = some u') : k = k' := by
  have hat {key l : WorkerKey} {y z : Worker} (hq : q.workers = x.world.pool.workers.insert key y)
      (hno : x.world.pool.worker? l = none) (hz : q.worker? l = some z) : l = key := by
    rw [Pool.worker?_of_insert hq] at hz
    split at hz
    · next hl => exact hl
    · rw [hno] at hz
      cases hz
  cases h with
  | carries pool _ =>
    obtain ⟨v, hv, -⟩ := pool.back hu
    rw [hnone] at hv
    cases hv
  | registers _ pool _ _ _ _ _ _ => exact (hat pool hnone hu).trans (hat pool hnone' hu').symm
  | releases _ _ _ pool _ _ _ => exact (hat pool hnone hu).trans (hat pool hnone' hu').symm
  | drains _ _ _ _ pool _ _ => exact (hat pool hnone hu).trans (hat pool hnone' hu').symm
  | leaves _ _ _ _ _ pool _ _ _ =>
    rw [Pool.worker?_of_erase pool] at hu
    split at hu
    · cases hu
    · rw [hnone] at hu
      cases hu

theorem distinct (h : Change x q items) (hdist : x.world.pool.Distinct)
    (hnum : ∀ {key v}, x.world.pool.worker? key = some v → v.seq < x.world.pool.nextSeq) :
    q.Distinct := by
  intro k k' u u' hu hu' he
  have hsucc := h.succeeds hdist
  rcases hsucc.back hu with ⟨v, hv, hr⟩ | ⟨hnone, ha⟩
  · rcases hsucc.back hu' with ⟨v', hv', hr'⟩ | ⟨-, ha'⟩
    · exact hdist hv hv' (hr.seq.symm.trans (he.trans hr'.seq))
    · have hlt := hnum hv
      rw [← hr.seq, he, ha'.seq] at hlt
      omega
  · rcases hsucc.back hu' with ⟨v', hv', hr'⟩ | ⟨hnone', ha'⟩
    · have hlt := hnum hv'
      rw [← hr'.seq, ← he, ha.seq] at hlt
      omega
    · exact h.eq_of_new hnone hu hnone' hu'

/-- Hooks are to be told what leaves, and nothing else. -/
theorem hookings (h : Change x q items) :
    Item.hookings items = (x.departure?.toList).flatMap fun r => r.2.told := by
  cases h with
  | carries _ unasked | registers _ _ _ _ _ _ _ unasked =>
    rw [unasked.departure, unasked.stayOut.hookings]
    rfl
  | releases deed _ _ _ _ mute _ =>
    rw [Moment.departure?_of_deed deed rfl, mute]
    rfl
  | drains _ _ _ departure _ _ stayOut =>
    rw [departure, stayOut.hookings]
    rfl
  | leaves departure _ _ _ _ _ _ told _ =>
    rw [departure, told]
    exact (List.append_nil _).symm

/-- Who can leave after an item is let leave, or could leave before. -/
theorem owed (h : Change x q items) {k : WorkerKey} {u : Worker} (hu : q.worker? k = some u)
    (hdrained : u.isDrained = true) : .retire k u.seq ∈ items ∨
      ∃ v, x.world.pool.worker? k = some v ∧ v.seq = u.seq ∧ v.isDrained = true := by
  cases h with
  | carries pool _ =>
    obtain ⟨v, hv, hc⟩ := pool.back hu
    refine .inr ⟨v, hv, hc.seq.symm, ?_⟩
    rw [Worker.isDrained, Bool.and_eq_true] at hdrained ⊢
    exact ⟨hc.removing ▸ hdrained.1, hc.reservations (hc.removing ▸ hdrained.1) ▸ hdrained.2⟩
  | registers _ pool _ _ removing _ _ _ =>
    rw [Pool.worker?_of_insert pool] at hu
    split at hu
    · obtain rfl := Option.some_inj.mp hu
      rw [Worker.not_drained_of_accepting removing] at hdrained
      cases hdrained
    · exact .inr ⟨u, hu, rfl, hdrained⟩
  | releases _ _ _ pool _ _ owes =>
    rw [Pool.worker?_of_insert pool] at hu
    split at hu
    · next hk =>
      obtain rfl := Option.some_inj.mp hu
      exact .inl ((owes _ _).mpr ⟨hdrained, hk, rfl⟩)
    · exact .inr ⟨u, hu, rfl, hdrained⟩
  | drains _ _ busy _ pool _ _ =>
    rw [Pool.worker?_of_insert pool] at hu
    split at hu
    · obtain rfl := Option.some_inj.mp hu
      rw [Worker.isDrained, Bool.and_eq_true] at hdrained
      exact absurd (hdrained.2.symm.trans busy) Bool.false_ne_true.symm
    · exact .inr ⟨u, hu, rfl, hdrained⟩
  | leaves _ _ _ _ _ pool _ _ _ =>
    rw [Pool.worker?_of_erase pool] at hu
    split at hu
    · cases hu
    · exact .inr ⟨u, hu, rfl, hdrained⟩

/-- A worker is let leave where the last action ends that was bound to it. -/
theorem releases_of_owes (h : Change x q items) {k : WorkerKey} {seq : Nat}
    (hj : .retire k seq ∈ items) : ∃ id ending v v', x.deed = .conclude id ending ∧
      x.world.pool.worker? k = some v ∧ v.release? id = some v' ∧ q.worker? k = some v' ∧
      v'.isDrained = true ∧ v'.seq = seq := by
  cases h with
  | carries _ unasked | registers _ _ _ _ _ _ _ unasked =>
    exact absurd hj (unasked.stayOut.retire_notMem k seq)
  | @releases id ending key v v' deed live release pool _ _ owes =>
    obtain ⟨hdrained, rfl, rfl⟩ := (owes k seq).mp hj
    exact ⟨id, ending, v, v', deed, live, release,
      by rw [Pool.worker?_of_insert pool, if_pos rfl], hdrained, rfl⟩
  | drains _ _ _ _ _ _ stayOut => exact absurd hj (stayOut.retire_notMem k seq)
  | leaves _ _ _ _ _ _ _ _ owes => exact absurd hj (owes k seq)

end Change

end TaskGrid
