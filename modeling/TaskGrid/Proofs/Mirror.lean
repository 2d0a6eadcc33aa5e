import TaskGrid.Proofs.Instances
import TaskGrid.Proofs.Observers

/-!
# What the listener knows of free capacity

Whatever changes what is free on a worker is followed by a telling of it.  Most tellings come at
once: what capacity is offered, withdrawn or bound, or a worker leaves, is told before anything else
can happen to the worker.  A telling of the end of an action does not.  It carries what was free
when the action ended, and before it the values of the action are registered and its end is told,
which can bind other actions to the worker, or let it leave.  Those tell the listener, too, and the
older value comes last.

There is one other way for the listener to be wrong.  A withdrawal that is refused only after it was
taken from what is free tells nothing; that needs offers that exceed what can be counted.

* `World.Mirrored`: the listener knows what is free.
* `lastTouch?`: when a worker was told of, or taken from in silence, for the last time.
* `World.Utters.settles`: what is changed is told of, or will be.
* `Item.Due`, `Timely`: tellings on the agenda that come at once are in time.
* `Machine.Course.mirrored_iff`: when the listener knows what is free.
-/

namespace TaskGrid

open Item (capacities)

/-- What is free under a key: nothing if no worker is registered there. -/
def Pool.freeOn (p : Pool) (key : WorkerKey) : Capacity := (p.freeOn? key).getD .empty

/-- The listener knows what is free. -/
structure World.Mirrored (w : World) : Prop where
  /-- What it was told last about a registered worker is free there. -/
  registered : ∀ {key free}, w.pool.freeOn? key = some free → lastFor key w.capacities = some free
  /-- What it was told last about a worker that left is that nothing is free. -/
  left : ∀ {key free}, w.pool.freeOn? key = none → lastFor key w.capacities = some free →
    free = .empty

/-- There is a listener that hears what is free. -/
def World.Hears (w : World) : Prop := ∃ l, w.listener = some l ∧ l.quiet = false

/-- The world with a listener. -/
def World.withListener (w : World) (l : Listener) : World := { w with listener := some l }

/-- Whether a withdrawal is refused only after it was taken from what is free. -/
def Pool.halves (p : Pool) (key : WorkerKey) (c : Capacity) : Bool :=
  (p.worker? key).any fun v => (v.free.subtract c).isOk && !(v.total.subtract c).isOk

/-- The key under which capacity is withdrawn by half at a moment. -/
def Moment.halved? (x : Moment) : Option WorkerKey :=
  match x.deed with
  | .reduce key c => if x.world.pool.halves key c then some key else none
  | _ => none

/-- Whether the listener is told at a moment what is free under a key, or capacity is withdrawn
there by half. -/
def Moment.touches (x : Moment) (key : WorkerKey) : Bool :=
  (lastFor key x.item.capacities).isSome || x.halved? = some key

/-- The last moment at which the listener was told what is free under a key, or capacity was
withdrawn there by half. -/
def lastTouch? (t : List Moment) (key : WorkerKey) : Option Moment := t.find? fun x => x.touches key

/-- Whether a command leaves the listener in place, and the workers to the scheduler. -/
def Command.keepsMirror : Command → Bool
  | .setListener _ | .pool _ => false
  | _ => true

/-! ## Tellings -/

section Tellings

variable {t : List Moment} {x : Moment} {key : WorkerKey} {free : Capacity}
  {l : List (WorkerKey × Capacity)}

theorem mem_of_lastFor (h : lastFor key l = some free) : (key, free) ∈ l := by
  obtain ⟨⟨k, c⟩, hmem, he⟩ := List.exists_of_findSome?_eq_some h
  split at he
  · next hk =>
    cases hk
    cases he
    exact List.mem_reverse.mp hmem
  · cases he

/-- What the items of moments tell, the latest moment first. -/
def tellings (t : List Moment) : List (WorkerKey × Capacity) :=
  t.reverse.flatMap fun x => x.item.capacities

theorem lastFor_tellings_cons (x : Moment) (t : List Moment) (key : WorkerKey) :
    lastFor key (tellings (x :: t)) =
      (lastFor key x.item.capacities).or (lastFor key (tellings t)) := by
  rw [tellings, List.reverse_cons, List.flatMap_append, lastFor_append, List.flatMap_singleton]
  rfl

/-- Where nothing was told and nothing withdrawn by half, nothing was told. -/
theorem lastFor_tellings_of_none (h : lastTouch? t key = none) :
    lastFor key (tellings t) = none := by
  have hnone : ∀ x ∈ t, lastFor key x.item.capacities = none := by
    intro x hx
    have htouch := List.find?_eq_none.mp h x hx
    cases hlast : lastFor key x.item.capacities with
    | none => rfl
    | some free => simp [Moment.touches, hlast] at htouch
  clear h
  induction t with
  | nil => rfl
  | cons x t ih =>
    rw [lastFor_tellings_cons, hnone x List.mem_cons_self,
      ih fun y hy => hnone y (List.mem_cons_of_mem _ hy)]
    rfl

/-- What was told at the last touch was told last. -/
theorem lastFor_tellings_of_some (h : lastTouch? t key = some x)
    (hx : lastFor key x.item.capacities = some free) : lastFor key (tellings t) = some free := by
  induction t with
  | nil => cases h
  | cons y t ih =>
    rw [lastFor_tellings_cons]
    unfold lastTouch? at h
    rw [List.find?_cons] at h
    split at h
    · cases h
      rw [hx]
      rfl
    · next hy =>
      have hlast : lastFor key y.item.capacities = none := by
        cases hlast : lastFor key y.item.capacities with
        | none => rfl
        | some free => simp [Moment.touches, hlast] at hy
      rw [hlast]
      exact ih h

end Tellings

namespace Pool

variable {p : Pool} {key : WorkerKey} {free : Capacity}

theorem freeOn_of_some (h : p.freeOn? key = some free) : p.freeOn key = free := by
  rw [freeOn, h]
  rfl

theorem freeOn_of_none (h : p.freeOn? key = none) : p.freeOn key = .empty := by
  rw [freeOn, h]
  rfl

end Pool

namespace Item

/-- An item tells the listener what is free on a worker, or lets the actions of the worker fail and
the listener be told then. -/
def Concerns (i : Item) (key : WorkerKey) : Prop :=
  (lastFor key i.capacities).isSome = true ∨ ∃ ids, i = .failBound key ids

theorem concerns_tellCapacity (key : WorkerKey) (free : Capacity) :
    (tellCapacity key free).Concerns key := by
  refine .inl ?_
  show (lastFor key [(key, free)]).isSome = true
  rw [lastFor_singleton, if_pos rfl]
  rfl

/-- The listener is told what is in an outbox. -/
theorem exists_concerns_ofOutbox {o : Outbox} {key : WorkerKey} {free : Capacity}
    (h : lastFor key o.capacity = some free) : ∃ j ∈ ofOutbox o, j.Concerns key := by
  refine ⟨.report o.assignments o.capacity, by simp [ofOutbox], .inl ?_⟩
  show (lastFor key o.capacity).isSome = true
  rw [h]
  rfl

end Item

/-! ## What is changed is told -/

namespace World

variable {w : World} {i : Item} {e : Effect}

/-- The listener is exchanged by command only. -/
theorem Utters.listener (h : w.Utters i e) (hi : i.setsListener = false) :
    e.1.listener = w.listener := by
  cases h with
  | aside unheard _ _ => exact unheard.listener
  | exchange _ listener _ _ _ => exact listener hi
  | reduce => unfold reduceWorker; split <;> rfl
  | remove => unfold removeWorker; split <;> rfl
  | retire => unfold World.retire; split <;> rfl
  | lose => unfold loseWorker; split <;> rfl
  | offer | failBound | conclude | pass | pool => rfl

theorem Utters.capacities (h : w.Utters i e) : e.1.capacities = w.capacities := by
  cases h with
  | aside unheard _ _ => exact unheard.capacities
  | exchange _ _ capacities _ _ => exact capacities
  | reduce => unfold reduceWorker; split <;> rfl
  | remove => unfold removeWorker; split <;> rfl
  | retire => unfold World.retire; split <;> rfl
  | lose => unfold loseWorker; split <;> rfl
  | offer | failBound | conclude | pass | pool => rfl

theorem pool_reduceWorker (w : World) (token : Nat) (key : WorkerKey) (c : Capacity) :
    (w.reduceWorker token key c).1.pool = (w.pool.reduce key c).2 := by
  unfold reduceWorker
  split <;> next h => rw [h]

/-- Whatever changes what is free under a key leads to an item that concerns it, unless capacity is
withdrawn by half. -/
theorem Utters.settles (h : w.Utters i e) (hcalm : w.disturbances = [])
    {key : WorkerKey} (hwhole : Moment.halved? ⟨w, i⟩ ≠ some key)
    (hi : ∀ token o, i ≠ .obey token (.pool o)) :
    (∃ j ∈ e.2, j.Concerns key) ∨ e.1.pool.freeOn? key = w.pool.freeOn? key := by
  cases h with
  | aside _ pool _ => exact .inr (by rw [pool])
  | exchange _ _ _ pool _ => exact .inr (by rw [pool])
  | offer _ k offered adaptor _ =>
    by_cases hk : k = key
    · subst hk
      exact .inl ⟨_, List.mem_cons_self, Item.concerns_tellCapacity k _⟩
    · exact .inr ((Pool.freeOn?_of_insert (w.pool.workers_add k offered adaptor) key).trans
        (if_neg hk))
  | @reduce token k c deed =>
    by_cases hk : k = key
    · subst hk
      have hwhole' : w.pool.halves k c = false := by
        unfold Moment.halved? at hwhole
        rw [deed] at hwhole
        simpa using hwhole
      unfold reduceWorker Pool.reduce
      cases hv : w.pool.worker? k with
      | none => exact .inr rfl
      | some v =>
        rw [Pool.halves, hv, Option.any_some] at hwhole'
        dsimp only
        cases hf : v.free.subtract c with
        | error s => exact .inr rfl
        | ok free =>
          cases ht : v.total.subtract c with
          | error s =>
            rw [hf, ht] at hwhole'
            cases hwhole'
          | ok total => exact .inl ⟨_, List.mem_cons_self, Item.concerns_tellCapacity k _⟩
    · rw [pool_reduceWorker]
      rcases Pool.reduce_cases w.pool k c with h | ⟨v, free, total, -, -, -, h⟩
      · exact .inr (by rw [h])
      · rw [h]
        exact .inr ((Pool.freeOn?_of_insert (p := w.pool) rfl key).trans (if_neg hk))
  | @remove k hook tail _ =>
    unfold removeWorker
    cases hr : w.pool.requestRemoval? w.catalog k hook with
    | none => exact .inr rfl
    | some r =>
      cases r with
      | draining n q =>
        obtain ⟨v, hv, -, -, rfl⟩ := Pool.requestRemoval?_eq_draining_iff.mp hr
        refine .inr ((Pool.freeOn?_of_insert (p := w.pool) rfl key).trans ?_)
        split
        · next hk => exact hk ▸ (Pool.freeOn?_of_worker? hv).symm
        · rfl
      | left d =>
        obtain ⟨v, -, -, rfl⟩ := Pool.requestRemoval?_eq_left_iff.mp hr
        by_cases hk : k = key
        · subst hk
          exact .inl ⟨.tellCapacity k .empty, by simp [depart], Item.concerns_tellCapacity k _⟩
        · exact .inr ((Pool.freeOn?_of_erase (p := w.pool) rfl key).trans (if_neg hk))
  | retire k seq =>
    unfold World.retire
    cases hr : w.pool.retire? w.catalog k seq with
    | none => exact .inr rfl
    | some d =>
      obtain ⟨v, -, -, rfl⟩ := Pool.retire?_eq_some_iff.mp hr
      by_cases hk : k = key
      · subst hk
        exact .inl ⟨.tellCapacity k .empty, by simp [depart], Item.concerns_tellCapacity k _⟩
      · exact .inr ((Pool.freeOn?_of_erase (p := w.pool) rfl key).trans (if_neg hk))
  | failBound => exact .inr rfl
  | lose token k byAgent _ =>
    unfold loseWorker
    cases hl : w.pool.lose? w.catalog k with
    | none => exact .inr rfl
    | some d =>
      obtain ⟨v, -, rfl⟩ := Pool.lose?_eq_some_iff.mp hl
      by_cases hk : k = key
      · subst hk
        exact .inl ⟨.failBound k (w.pool.depart w.catalog k v true).bound, by simp [depart],
          .inr ⟨_, rfl⟩⟩
      · exact .inr ((Pool.freeOn?_of_erase (p := w.pool) rfl key).trans (if_neg hk))
  | conclude x values events last _ =>
    have hfree := (w.schedule.reports_conclude w.pool x events last).2 key
    cases hlast : lastFor key (w.schedule.conclude w.pool x events last).2.2.capacity with
    | none =>
      rw [hlast] at hfree
      exact .inr hfree
    | some free =>
      obtain ⟨j, hj, hc⟩ := Item.exists_concerns_ofOutbox hlast
      exact .inl ⟨j, by simp [World.conclude, hj], hc⟩
  | pass token =>
    obtain ⟨l, hl, hfree⟩ := Pass.reports_run w.policy
      (p := Pass.start w.schedule w.pool w.catalog w.disturbances w.scored) hcalm
    have hcap : w.passed.outbox.capacity = l := hl
    cases hlast : lastFor key w.passed.outbox.capacity with
    | none =>
      refine .inr ((hfree key).trans ?_)
      rw [← hcap, hlast]
      rfl
    | some free =>
      obtain ⟨j, hj, hc⟩ := Item.exists_concerns_ofOutbox hlast
      exact .inl ⟨j, List.mem_append_left _ (List.mem_append_right _ hj), hc⟩
  | pool token asked => exact absurd asked (hi token _)

end World

/-! ## Tellings that come at once -/

namespace Item

/-- Whether an item leaves workers alone, and so does everything that it leads to. -/
def isStill : Item → Bool
  | .deliver _ e => !e.isTerminal
  | .note _ | .prompt _ | .report .. | .tellCapacity .. | .tellRemoved .. => true
  | _ => false

attribute [simp] admits

/-- No item of a list registers workers or leads to an item that does. -/
def Inward (l : List Item) : Prop := ∀ j ∈ l, j.admits = false

@[simp] theorem inward_nil : Inward [] := fun _ h => by cases h

@[simp] theorem inward_cons {i : Item} {l : List Item} :
    Inward (i :: l) ↔ i.admits = false ∧ Inward l := List.forall_mem_cons

@[simp] theorem inward_append {l r : List Item} : Inward (l ++ r) ↔ Inward l ∧ Inward r :=
  List.forall_mem_append

theorem inward_map {α : Type} {f : α → Item} (l : List α) (h : ∀ a, (f a).admits = false) :
    Inward (l.map f) := by
  intro j hj
  obtain ⟨a, -, rfl⟩ := List.mem_map.mp hj
  exact h a

@[simp] theorem inward_ofOutbox (o : Outbox) : Inward (ofOutbox o) :=
  inward_append.mpr ⟨inward_map _ fun _ => rfl, inward_cons.mpr ⟨rfl, inward_map _ fun _ => rfl⟩⟩

@[simp] theorem inward_ofHooks (d : Pool.Departure) : Inward (ofHooks d) :=
  inward_map _ fun _ => rfl

/-- If an item tells at once what is free, then it is in time, with the items `before` that come
first: what it tells is free, and either they leave workers alone, or nobody is registered under the
key and they register nobody. -/
def Due (p : Pool) (before : List Item) (j : Item) : Prop :=
  j.tellsAtOnce = true → ∀ {key free}, lastFor key j.capacities = some free →
    free = p.freeOn key ∧ ((∀ i ∈ before, i.isStill = true) ∨
      p.freeOn? key = none ∧ Inward before)

end Item

/-- The items of a list that tell at once what is free are in time, if the items `before` come
first. -/
def Timely (p : Pool) : List Item → List Item → Prop
  | _, [] => True
  | before, j :: l => j.Due p before ∧ Timely p (before ++ [j]) l

section Timely

variable {p q : Pool} {before after l r : List Item} {j : Item} {key : WorkerKey} {free : Capacity}

theorem Item.due_of_later (h : j.tellsAtOnce = false) : j.Due p before := fun hj =>
  absurd (hj.symm.trans h) Bool.false_ne_true.symm

theorem Item.due_tellCapacity (hfree : p.freeOn key = free)
    (hbefore : (∀ i ∈ before, i.isStill = true) ∨
      p.freeOn? key = none ∧ Item.Inward before) :
    (tellCapacity key free).Due p before := by
  intro _ k c hc
  change lastFor k [(key, free)] = some c at hc
  rw [lastFor_singleton] at hc
  split at hc
  · next hk =>
    subst hk
    exact ⟨(Option.some_inj.mp hc).symm.trans hfree.symm, hbefore⟩
  · cases hc

theorem timely_of_later (before : List Item) (h : ∀ j ∈ l, j.tellsAtOnce = false) :
    Timely p before l := by
  induction l generalizing before with
  | nil => trivial
  | cons j l ih =>
    exact ⟨Item.due_of_later (h j List.mem_cons_self),
      ih _ fun k hk => h k (List.mem_cons_of_mem _ hk)⟩

theorem timely_of_tame (before : List Item) (h : l.all Item.isTame = true) :
    Timely p before l :=
  timely_of_later before fun j hj => Item.tellsAtOnce_of_isTame (List.all_eq_true.mp h j hj)

theorem timely_append :
    Timely p before (l ++ r) ↔ Timely p before l ∧ Timely p (before ++ l) r := by
  induction l generalizing before with
  | nil => simp [Timely]
  | cons j l ih =>
    rw [List.cons_append, Timely, Timely, ih, and_assoc, List.append_assoc, List.singleton_append]

/-- Items stay in time if they do whatever comes between. -/
theorem Timely.goesOn
    (h : ∀ between (j : Item), j.Due p (before ++ between) → j.Due q (after ++ between))
    (ht : Timely p before l) : Timely q after l := by
  induction l generalizing before after with
  | nil => trivial
  | cons j l ih =>
    refine ⟨by simpa using h [] j (by simpa using ht.1), ih (fun between k hk => ?_) ht.2⟩
    rw [List.append_assoc] at hk ⊢
    exact h _ k hk

end Timely

namespace World

variable {w : World} {i : Item} {e : Effect} {key : WorkerKey}

/-- What leaves workers alone leads to such items only. -/
theorem still_carryOut (w : World) (hi : i.isStill = true) :
    (w.carryOut i).1.pool = w.pool ∧ ∀ j ∈ (w.carryOut i).2, j.isStill = true := by
  cases i
  case deliver m ev =>
    refine ⟨(deliver_frame w m ev).2.1, fun j hj => ?_⟩
    rcases mem_deliver hj with ⟨p, rfl⟩ | ⟨app, inner, -, rfl | ⟨hend, -⟩⟩
    · rfl
    · exact hi
    · rw [Item.isStill, hend] at hi
      cases hi
  case note n => exact ⟨rfl, List.forall_mem_nil _⟩
  case prompt p => exact ⟨rfl, List.forall_mem_nil _⟩
  case report a c => exact ⟨(still_report w a c).pool, List.forall_mem_nil _⟩
  case tellCapacity k free => exact ⟨(still_report w _ _).pool, List.forall_mem_nil _⟩
  case tellRemoved r last => exact ⟨(still_tellRemoved w r last).pool, List.forall_mem_nil _⟩
  all_goals cases hi

@[simp] theorem inward_announcements (w : World) (names : List String) :
    Item.Inward (w.announcements names) := by
  refine Item.inward_append.mpr ⟨Item.inward_map _ fun _ => rfl, fun j hj => ?_⟩
  obtain ⟨label, -, hj⟩ := List.mem_flatMap.mp hj
  exact Item.inward_map names (fun _ => rfl) j hj

/-- What registers nobody leads to such items only. -/
theorem inward_carryOut (w : World) (hi : i.admits = false) : Item.Inward (w.carryOut i).2 := by
  cases i
  case note | prompt | report | tellCapacity | tellRemoved => exact Item.inward_nil
  case deliver m ev =>
    intro j hj
    rcases mem_deliver hj with ⟨p, rfl⟩ | ⟨app, inner, -, rfl | ⟨-, rfl⟩⟩ <;> rfl
  case tellHook hook r =>
    intro j hj
    obtain ⟨orders, rfl⟩ := mem_tellHook hj
    rfl
  case failBound key ids => exact Item.inward_ofOutbox _
  case pass token =>
    refine Item.inward_append.mpr ⟨Item.inward_append.mpr ⟨?_, Item.inward_ofOutbox _⟩, ?_⟩
    · exact Item.inward_map _ fun x => by cases x <;> rfl
    · exact Item.inward_map _ fun _ => rfl
  case wake name =>
    unfold carryOut World.wake
    dsimp only
    split <;> simp
  case addReplica name r token =>
    exact Item.inward_append.mpr ⟨inward_announcements _ _, Item.inward_map _ fun _ => rfl⟩
  case retire key seq =>
    unfold carryOut World.retire
    dsimp only
    split <;> simp [depart]
  case releaseNode key =>
    unfold carryOut releaseNode removeWorker
    dsimp only
    split <;> simp [depart]
  case closeSession app =>
    unfold carryOut World.closeSession
    dsimp only
    split <;> simp
  case endSession app =>
    unfold carryOut World.endSession
    dsimp only
    split
    · exact Item.inward_nil
    · exact Item.inward_map _ fun _ => rfl
  case handOver orders =>
    unfold carryOut World.handOver
    dsimp only
    split
    · exact Item.inward_nil
    · exact Item.inward_nil
    · split
      · exact Item.inward_nil
      · split <;> simp
  case rescue b =>
    unfold carryOut World.rescue
    dsimp only
    split
    · unfold endBatch
      split <;> simp
    · split <;> simp
  case runDeferred =>
    unfold carryOut World.runDeferred
    dsimp only
    split <;> simp
  all_goals cases hi

/-- Where nobody is registered, nobody is registered by what registers nobody. -/
theorem Utters.absent {a : List Item} (h : w.Utters i e) (ha : Agrees w.schedule w.pool a)
    (hcalm : w.disturbances = []) (hi : i.admits = false) (hk : w.pool.worker? key = none) :
    e.1.pool.worker? key = none := by
  have hcarries {q : Pool} (hq : w.pool.Carries q) : q.worker? key = none := by
    cases hu : q.worker? key with
    | none => rfl
    | some u =>
      obtain ⟨v, hv, -⟩ := hq.back hu
      rw [hk] at hv
      cases hv
  have herase {k : WorkerKey} {q : Pool} (hq : q.workers = w.pool.workers.erase k) :
      q.worker? key = none := by
    rw [Pool.worker?_of_erase hq, hk, ite_self]
  have hinsert {k : WorkerKey} {q : Pool} {v v' : Worker} (hv : w.pool.worker? k = some v)
      (hq : q.workers = w.pool.workers.insert k v') : q.worker? key = none := by
    rw [Pool.worker?_of_insert hq, if_neg, hk]
    rintro rfl
    rw [hk] at hv
    cases hv
  cases h with
  | aside _ pool _ => rw [pool, hk]
  | exchange _ _ _ pool _ => rw [pool, hk]
  | offer admits _ _ _ _ => exact absurd (admits.symm.trans hi) Bool.false_ne_true.symm
  | @reduce token k c _ =>
    rw [pool_reduceWorker]
    exact hcarries (Pool.carries_reduce _ k c)
  | @remove k hook tail _ =>
    unfold removeWorker
    cases hr : w.pool.requestRemoval? w.catalog k hook with
    | none => exact hk
    | some r =>
      cases r with
      | draining n q =>
        obtain ⟨v, hv, -, -, rfl⟩ := Pool.requestRemoval?_eq_draining_iff.mp hr
        exact hinsert hv rfl
      | left d =>
        obtain ⟨v, -, -, rfl⟩ := Pool.requestRemoval?_eq_left_iff.mp hr
        exact herase rfl
  | retire k seq =>
    unfold World.retire
    cases hr : w.pool.retire? w.catalog k seq with
    | none => exact hk
    | some d =>
      obtain ⟨v, -, -, rfl⟩ := Pool.retire?_eq_some_iff.mp hr
      exact herase rfl
  | failBound => exact hk
  | lose token k byAgent _ =>
    unfold loseWorker
    cases hl : w.pool.lose? w.catalog k with
    | none => exact hk
    | some d =>
      obtain ⟨v, -, rfl⟩ := Pool.lose?_eq_some_iff.mp hl
      exact herase rfl
  | conclude x values events last _ =>
    show (Schedule.releaseBinding w.pool x {}).1.worker? key = none
    rcases Schedule.releaseBinding_cases w.pool x with
      ⟨hp, -, -⟩ | ⟨k, v, v', -, hv, -, hp, -⟩
    · rw [hp, hk]
    · rw [hp]
      exact hinsert hv rfl
  | pass token => exact hcarries (carries_passed ha hcalm)
  | pool token asked =>
    rw [asked] at hi
    cases hi

/-- Where nobody is registered, nobody is registered by what registers nobody. -/
theorem absent_carryOut {a : List Item} (ha : Agrees w.schedule w.pool a)
    (hcalm : w.disturbances = []) (hi : i.admits = false) (hk : w.pool.worker? key = none) :
    (w.carryOut i).1.pool.worker? key = none := by
  by_cases hcap : i.capacities = []
  · exact (w.utters_carryOut hcap).absent ha hcalm hi hk
  · have hstill : i.isStill = true := by
      cases i with
      | note | report | tellCapacity => rfl
      | _ => exact absurd rfl hcap
    rw [(w.still_carryOut hstill).1, hk]

/-- What was in time on the agenda is in time when the first item is done. -/
theorem timely_later {a rest : List Item} (ha : Agrees w.schedule w.pool a)
    (hcalm : w.disturbances = []) (h : Timely w.pool [i] rest) :
    Timely (w.carryOut i).1.pool (w.carryOut i).2 rest := by
  refine h.goesOn fun between j hj htells key free hfree => ?_
  obtain ⟨rfl, hbefore⟩ := hj htells hfree
  rcases hbefore with hstill | ⟨hnone, hinward⟩
  · obtain ⟨hpool, hitems⟩ := w.still_carryOut (hstill i List.mem_cons_self)
    rw [hpool]
    refine ⟨rfl, .inl fun k hk => ?_⟩
    exact (List.mem_append.mp hk).elim (hitems k) fun hk => hstill k (List.mem_cons_of_mem _ hk)
  · have hi := hinward i List.mem_cons_self
    have habsent : (w.carryOut i).1.pool.freeOn? key = none :=
      Pool.freeOn?_eq_none_iff.mpr
        (absent_carryOut ha hcalm hi (Pool.freeOn?_eq_none_iff.mp hnone))
    rw [Pool.freeOn_of_none hnone, Pool.freeOn_of_none habsent]
    refine ⟨rfl, .inr ⟨habsent, fun k hk => ?_⟩⟩
    exact (List.mem_append.mp hk).elim (w.inward_carryOut hi k)
      fun hk => hinward k (List.mem_cons_of_mem _ hk)

/-- What a pass tells at once is in time. -/
theorem timely_runPass {a : List Item} (ha : Agrees w.schedule w.pool a)
    (hcalm : w.disturbances = []) (token : Option Nat) :
    Timely (w.runPass token).1.pool [] (w.runPass token).2 := by
  have hsteady := ha.steady w.catalog w.scored
  rw [← hcalm] at hsteady
  obtain ⟨⟨es, hes, hgo, -⟩, hinc⟩ := Pass.goes_run w.policy hsteady
  obtain ⟨l, hl, hfree⟩ := Pass.reports_run w.policy hsteady.calm
  have hevents : w.passed.outbox.events = es := hes
  have hnone : w.passed.incidents = [] := hinc
  have hcap : w.passed.outbox.capacity = l := hl
  show Timely w.passed.pool [] (w.passed.incidents.map .ofIncident ++ Item.ofOutbox w.passed.outbox
    ++ token.toList.map fun t => .reply t (.assignments w.passed.outbox.assignments))
  rw [hnone, List.map_nil, List.nil_append, Item.ofOutbox, hevents, timely_append, timely_append]
  refine ⟨⟨timely_of_tame _ (by simp), fun _ key free hlast => ⟨?_, .inl fun j hj => ?_⟩,
    timely_of_tame _ (by simp)⟩, timely_of_tame _ (by simp)⟩
  · change lastFor key w.passed.outbox.capacity = some free at hlast
    refine (Pool.freeOn_of_some ((hfree key).trans ?_)).symm
    rw [← hcap, hlast]
    rfl
  · obtain ⟨x, hx, rfl⟩ := List.mem_map.mp hj
    exact congrArg not (hgo x hx)

/-- What an item has told at once is in time. -/
theorem Utters.timely {a : List Item} (h : w.Utters i e) (ha : Agrees w.schedule w.pool a)
    (hcalm : w.disturbances = []) : Timely e.1.pool [] e.2 := by
  have hleft {d : Pool.Departure} {k : WorkerKey} {tail : List Item}
      (hk : d.pool.worker? k = none) (tame : tail.all Item.isTame = true) :
      Timely d.pool [] (Item.ofHooks d ++ .tellCapacity k .empty :: tail) := by
    have hnone := Pool.freeOn?_eq_none_iff.mpr hk
    refine timely_append.mpr ⟨timely_of_tame _ (by simp), ?_, timely_of_tame _ tame⟩
    exact Item.due_tellCapacity (Pool.freeOn_of_none hnone) (.inr ⟨hnone, Item.inward_ofHooks d⟩)
  cases h with
  | aside _ _ tame => exact timely_of_tame _ tame
  | exchange _ _ _ _ later => exact timely_of_later _ later
  | offer _ k offered adaptor tame =>
    refine ⟨Item.due_tellCapacity (Pool.freeOn_of_some ?_) (.inl (List.forall_mem_nil _)), ?_⟩
    · exact (Pool.freeOn?_of_insert (w.pool.workers_add k offered adaptor) k).trans (if_pos rfl)
    · exact timely_of_tame _ (by simpa using tame)
  | @reduce token k c _ =>
    unfold reduceWorker Pool.reduce
    cases w.pool.worker? k with
    | none => exact timely_of_tame _ rfl
    | some v =>
      dsimp only
      cases v.free.subtract c with
      | error s => exact timely_of_tame _ rfl
      | ok free =>
        cases v.total.subtract c with
        | error s => exact timely_of_tame _ rfl
        | ok total =>
          refine ⟨Item.due_tellCapacity (Pool.freeOn_of_some ?_) (.inl (List.forall_mem_nil _)),
            timely_of_tame _ rfl⟩
          exact (Pool.freeOn?_of_insert (p := w.pool) rfl k).trans (if_pos rfl)
  | @remove k hook tail tame =>
    unfold removeWorker
    cases hr : w.pool.requestRemoval? w.catalog k hook with
    | none => exact timely_of_tame _ tame
    | some r =>
      cases r with
      | draining n q => exact timely_of_tame _ tame
      | left d =>
        obtain ⟨v, -, -, rfl⟩ := Pool.requestRemoval?_eq_left_iff.mp hr
        have hnone := w.pool.worker?_depart_self w.catalog k (Pool.leaving v hook) false
        simpa [depart] using
          hleft hnone (show (.tellRemoved _ false :: tail).all _ = true from tame)
  | retire k seq =>
    unfold World.retire
    cases hr : w.pool.retire? w.catalog k seq with
    | none => exact timely_of_tame _ rfl
    | some d =>
      obtain ⟨v, -, -, rfl⟩ := Pool.retire?_eq_some_iff.mp hr
      exact hleft (w.pool.worker?_depart_self w.catalog k v false) rfl
  | failBound k ids =>
    exact timely_of_tame _ (Item.all_isTame_ofOutbox (w.schedule.alike_abandon k ids).assignments)
  | lose token k byAgent _ =>
    refine timely_of_later _ ?_
    unfold loseWorker
    split
    · simp [Item.tellsAtOnce, Notice.capacity?]
    · dsimp only [depart]
      split <;> simp [Item.tellsAtOnce, Notice.capacity?, Item.ofHooks, or_imp, forall_and]
  | conclude x values events last tame =>
    refine timely_of_tame _ ?_
    have hout := (w.schedule.reports_conclude w.pool x events last).1
    simp [World.conclude, Item.all_isTame_ofOutbox hout, tame]
  | pass token => exact timely_runPass ha hcalm token
  | pool token _ => exact timely_of_tame _ (by simp [changePool])

end World

/-! ## The invariant -/

namespace World

variable {w : World} {i : Item}

theorem listener_carryOut (hi : i.setsListener = false) :
    (w.carryOut i).1.listener = w.listener := by
  by_cases hcap : i.capacities = []
  · exact (w.utters_carryOut hcap).listener hi
  · cases i with
    | note n => rfl
    | report a c => exact listener_report w a c
    | tellCapacity key free => exact listener_report w _ _
    | _ => exact absurd rfl hcap

/-- The listener is told what an item tells. -/
theorem capacities_carryOut (hw : w.Hears) (i : Item) :
    (w.carryOut i).1.capacities = w.capacities ++ i.capacities := by
  obtain ⟨l, hl, hquiet⟩ := hw
  have hreport (a : List Assignment) (c : List (WorkerKey × Capacity)) :
      (w.report a c).capacities = w.capacities ++ c := by
    rw [capacities_report hl, hquiet]
    rfl
  by_cases hcap : i.capacities = []
  · rw [(w.utters_carryOut hcap).capacities, hcap, List.append_nil]
  · cases i with
    | note n => exact capacities_note w n
    | report a c => exact hreport a c
    | tellCapacity key free => exact hreport [] [(key, free)]
    | _ => exact absurd rfl hcap

/-- An item that tells what is free leaves workers alone. -/
theorem pool_carryOut_of_tells (w : World) {key : WorkerKey} {free : Capacity}
    (h : lastFor key i.capacities = some free) : (w.carryOut i).1.pool = w.pool := by
  refine (w.still_carryOut ?_).1
  cases i with
  | note | report | tellCapacity => rfl
  | _ => cases h

/-- Whatever changes what is free under a key leads to an item that concerns it, unless capacity is
withdrawn by half. -/
theorem settles_carryOut (hcalm : w.disturbances = []) {key : WorkerKey}
    (hwhole : Moment.halved? ⟨w, i⟩ ≠ some key) (hi : ∀ token o, i ≠ .obey token (.pool o)) :
    (∃ j ∈ (w.carryOut i).2, j.Concerns key) ∨
      (w.carryOut i).1.pool.freeOn? key = w.pool.freeOn? key := by
  by_cases hcap : i.capacities = []
  · exact (w.utters_carryOut hcap).settles hcalm hwhole hi
  · have hstill : i.isStill = true := by
      cases i with
      | note | report | tellCapacity => rfl
      | _ => exact absurd rfl hcap
    exact .inr (by rw [(w.still_carryOut hstill).1])

/-- The listener is told when the actions of a lost worker have failed. -/
theorem exists_concerns_failBound (w : World) (key : WorkerKey) (ids : List Nat) :
    ∃ j ∈ (w.failBound key ids).2, j.Concerns key := by
  have hlast : lastFor key ((w.schedule.abandon key ids).2.capacity ++ [(key, .empty)]) =
      some .empty := by
    rw [lastFor_append, lastFor_singleton, if_pos rfl]
    rfl
  exact Item.exists_concerns_ofOutbox hlast

end World

/-- What the listener was told in the moments `t` and will be told: all that changes is told, and
what is told at once is in time. -/
structure Mirroring (t : List Moment) (m : Machine) : Prop where
  /-- The listener hears what is free. -/
  hears : m.world.Hears
  /-- It was told what the items of the moments tell. -/
  told : m.world.capacities = tellings t
  /-- What is free under a key will be told, or is what was free after the last touch. -/
  settled : ∀ key, (∃ j ∈ m.agenda, j.Concerns key) ∨ m.world.pool.freeOn? key =
    (lastTouch? t key).bind fun x => x.after.pool.freeOn? key
  /-- What is to be told at once will be in time. -/
  timely : Timely m.world.pool [] m.agenda
  /-- What was told at once was in time. -/
  past : ∀ {x}, x ∈ t → x.item.tellsAtOnce = true → ∀ {key free},
    lastFor key x.item.capacities = some free → free = x.world.pool.freeOn key

namespace Mirroring

open Machine

variable {t : List Moment} {w : World} {i : Item} {rest : List Item}

theorem settled_step (h : Mirroring t ⟨w, i :: rest⟩) (hcalm : w.disturbances = [])
    (hi : ∀ token o, i ≠ .obey token (.pool o)) (key : WorkerKey) :
    (∃ j ∈ (w.carryOut i).2 ++ rest, j.Concerns key) ∨ (w.carryOut i).1.pool.freeOn? key =
      (lastTouch? (⟨w, i⟩ :: t) key).bind fun x => x.after.pool.freeOn? key := by
  have hnext (hn : ∃ j ∈ (w.carryOut i).2, j.Concerns key) :
      ∃ j ∈ (w.carryOut i).2 ++ rest, j.Concerns key := by
    obtain ⟨j, hj, hc⟩ := hn
    exact ⟨j, List.mem_append_left _ hj, hc⟩
  unfold lastTouch?
  rw [List.find?_cons]
  split
  · exact .inr rfl
  · next htouch =>
    obtain ⟨hlast, hwhole⟩ : (lastFor key i.capacities).isSome = false ∧
        Moment.halved? ⟨w, i⟩ ≠ some key := by simpa [Moment.touches] using htouch
    rcases h.settled key with ⟨j, hj, hc⟩ | hnow
    · rcases List.mem_cons.mp hj with rfl | hj
      · rcases hc with hsome | ⟨ids, rfl⟩
        · exact absurd (hsome.symm.trans hlast) Bool.false_ne_true.symm
        · exact .inl (hnext (w.exists_concerns_failBound key ids))
      · exact .inl ⟨j, List.mem_append_right _ hj, hc⟩
    · rcases World.settles_carryOut hcalm hwhole hi with hn | hsame
      · exact .inl (hnext hn)
      · exact .inr (hsame.trans hnow)

theorem step (h : Mirroring t ⟨w, i :: rest⟩) (hag : InAgreement ⟨w, i :: rest⟩)
    (hset : i.setsListener = false) :
    Mirroring (⟨w, i⟩ :: t) (Machine.step ⟨w, i :: rest⟩) where
  hears := by
    obtain ⟨l, hl, hquiet⟩ := h.hears
    exact ⟨l, (World.listener_carryOut hset).trans hl, hquiet⟩
  told := by
    rw [tellings, List.reverse_cons, List.flatMap_append, List.flatMap_singleton, ← tellings,
      ← h.told]
    exact World.capacities_carryOut h.hears i
  settled := h.settled_step hag.calm fun token o he =>
    hag.spared token (.pool o) (he ▸ List.mem_cons_self) rfl
  timely := by
    rw [step_cons, timely_append]
    refine ⟨?_, World.timely_later hag.agrees hag.calm h.timely.2⟩
    by_cases hcap : i.capacities = []
    · exact (w.utters_carryOut hcap).timely hag.agrees hag.calm
    · cases i with
      | note | report | tellCapacity => trivial
      | _ => exact absurd rfl hcap
  past hx htells key free hfree := by
    rcases List.mem_cons.mp hx with rfl | hx
    · exact (h.timely.1 htells hfree).1
    · exact h.past hx htells hfree

/-- Along every course whose clients do not answer, all that changes is told, unless it is withdrawn
by half. -/
theorem of_course {asks : Command → Prop} {w₀ : World} (hw : InAgreement ⟨w₀, []⟩)
    (hears : w₀.Hears) (hlog : w₀.log = []) (hnobody : ∀ key, w₀.pool.freeOn? key = none)
    (hasks : ∀ {c}, asks c → c.keepsMirror = true) {m : Machine}
    (h : Course (.quiet asks) w₀ t m) : Mirroring t m := by
  have hspared {c : Command} (hc : c.keepsMirror = true) : c.surface ≠ .pool := by
    intro hp
    cases c <;> cases hp
    cases hc
  have hrule : (Conduct.quiet asks).SparesPool :=
    ⟨fun hc => hspared (hasks hc), fun {c} (hc : False) => hc.elim⟩
  induction h with
  | start =>
    exact ⟨hears, by rw [World.capacities, hlog]; rfl, fun key => .inr (hnobody key), trivial,
      fun hx => by cases hx⟩
  | ask token _ _ ih =>
    refine ⟨ih.hears, ih.told, fun key => ?_, ⟨Item.due_of_later rfl, trivial⟩, ih.past⟩
    rcases ih.settled key with ⟨j, hj, -⟩ | hnow
    · cases hj
    · exact .inr hnow
  | @item t w i rest hcourse ih =>
    refine ih.step (hcourse.keepsAgreement hw hrule) ?_
    cases i with
    | obey token c =>
      have hc : c.keepsMirror = true := hcourse.allows hw hrule hasks
        (fun {c} (hc : False) => hc.elim) List.mem_cons_self
      cases c <;> first | rfl | cases hc
    | _ => rfl
  | @answer t w p rest given hcourse hg ih =>
    obtain rfl : given = [] := List.eq_nil_iff_forall_not_mem.mpr fun g hmem => hg g hmem
    have hag := hcourse.keepsAgreement hw hrule
    refine ⟨ih.hears, ih.told, fun key => ?_, ?_, ih.past⟩
    · rcases ih.settled key with ⟨j, hj, hc⟩ | hnow
      · rcases List.mem_cons.mp hj with rfl | hj
        · rcases hc with hsome | ⟨_, he⟩
          · cases hsome
          · cases he
        · exact .inl ⟨j, hj, hc⟩
      · exact .inr hnow
    · exact World.timely_later (i := .prompt p) hag.agrees hag.calm ih.timely.2

end Mirroring

/-- Where capacity is withdrawn by half, a worker is registered afterwards. -/
theorem Moment.exists_freeOn?_of_halved? {x : Moment} {key : WorkerKey}
    (h : x.halved? = some key) : ∃ free, x.after.pool.freeOn? key = some free := by
  obtain ⟨w, i⟩ := x
  unfold halved? at h
  split at h
  · next k c hdeed =>
    obtain ⟨hhalves, hk⟩ := Option.ite_none_right_eq_some.mp h
    cases hk
    obtain ⟨v, hv, -⟩ := (Option.any_eq_true _ _).mp hhalves
    have hpool : (w.carryOut i).1.pool = (w.pool.reduce key c).2 := by
      have hdoes := w.does_carryOut i
      rw [hdeed] at hdoes
      generalize w.carryOut i = e at hdoes
      cases hdoes
      rfl
    rw [after, hpool]
    rcases Pool.reduce_cases w.pool key c with h | ⟨v', free, total, -, -, -, h⟩
    · exact ⟨_, h ▸ Pool.freeOn?_of_worker? hv⟩
    · exact ⟨free, by rw [h, Pool.freeOn?_of_insert (p := w.pool) rfl, if_pos rfl]⟩
  · cases h

namespace Mirroring

variable {t : List Moment} {m : Machine} {key : WorkerKey} {x : Moment}

/-- What was told of free capacity, if nothing is to be done, is right if it was right when it was
touched last. -/
theorem mirrored_iff_touches (h : Mirroring t m) (hdone : m.agenda = []) :
    m.world.Mirrored ↔ ∀ key x, lastTouch? t key = some x →
      lastFor key m.world.capacities = some (x.after.pool.freeOn key) := by
  have hfree (key : WorkerKey) : m.world.pool.freeOn? key =
      (lastTouch? t key).bind fun x => x.after.pool.freeOn? key := by
    rcases h.settled key with ⟨j, hj, -⟩ | hnow
    · rw [hdone] at hj
      cases hj
    · exact hnow
  constructor
  · intro hm key x hlast
    have hx := hfree key
    rw [hlast, Option.bind_some] at hx
    cases hf : x.after.pool.freeOn? key with
    | some free =>
      rw [Pool.freeOn_of_some hf]
      exact hm.registered (hx.trans hf)
    | none =>
      have htouch := List.find?_some hlast
      rw [Moment.touches, Bool.or_eq_true] at htouch
      rcases htouch with htold | hhalved
      · obtain ⟨free, hsome⟩ := Option.isSome_iff_exists.mp htold
        have hlastFor : lastFor key m.world.capacities = some free := by
          rw [h.told]
          exact lastFor_tellings_of_some hlast hsome
        rw [Pool.freeOn_of_none hf, hlastFor, hm.left (hx.trans hf) hlastFor]
      · obtain ⟨free, hsome⟩ := Moment.exists_freeOn?_of_halved? (of_decide_eq_true hhalved)
        rw [hf] at hsome
        cases hsome
  · intro hright
    refine ⟨fun {key free} hf => ?_, fun {key free} hf hlastFor => ?_⟩
    · rw [hfree] at hf
      obtain ⟨x, hlast, hx⟩ := Option.bind_eq_some_iff.mp hf
      rw [hright key x hlast, Pool.freeOn_of_some hx]
    · cases hlast : lastTouch? t key with
      | none =>
        rw [h.told, lastFor_tellings_of_none hlast] at hlastFor
        cases hlastFor
      | some x =>
        rw [hfree, hlast, Option.bind_some] at hf
        rw [hright key x hlast, Pool.freeOn_of_none hf] at hlastFor
        exact (Option.some_inj.mp hlastFor).symm

/-- A touch that is neither the report of ended actions nor a withdrawal by half tells what is
free. -/
theorem told_at_touch (h : Mirroring t m) (hlast : lastTouch? t key = some x)
    (hreport : ∀ told, x.item ≠ .report [] told) (hwhole : x.halved? ≠ some key) :
    lastFor key m.world.capacities = some (x.after.pool.freeOn key) := by
  have htouch := List.find?_some hlast
  rw [Moment.touches, decide_eq_false hwhole, Bool.or_false] at htouch
  obtain ⟨free, hfree⟩ := Option.isSome_iff_exists.mp htouch
  have htells : x.item.tellsAtOnce = true := by
    obtain ⟨w, i⟩ := x
    cases i with
    | report assignments told =>
      cases assignments with
      | nil => exact absurd rfl (hreport told)
      | cons a l => rfl
    | note n =>
      cases hn : n.capacity? with
      | none => simp [Item.capacities, hn] at hfree
      | some r => simp [Item.tellsAtOnce, hn]
    | tellCapacity => rfl
    | _ => cases hfree
  rw [h.told, lastFor_tellings_of_some hlast hfree, Moment.after,
    x.world.pool_carryOut_of_tells hfree, h.past (List.mem_of_find?_eq_some hlast) htells hfree]

end Mirroring

namespace Machine

/-- Where clients do not answer, the scheduler, the agent and the catalog keep what the listener
knows of free capacity right, but for two things: the report of an ended action, and capacity that
is withdrawn by half.  The listener knows between calls what is free exactly if, under every key
where such a thing came last, what it was told last was free then. -/
theorem Course.mirrored_iff {asks : Command → Prop} {policy : Policy} {localNodes : List String}
    {withholds : Bool} {limit : Nat} {l : Listener} {t : List Moment} {m : Machine}
    (hasks : ∀ {c}, asks c → c.keepsMirror = true) (hl : l.quiet = false)
    (h : Course (.quiet asks) ((World.fresh policy localNodes withholds limit).withListener l) t m)
    (hdone : m.agenda = []) :
    m.world.Mirrored ↔ ∀ key x, lastTouch? t key = some x →
      (∃ told, x.item = .report [] told) ∨ x.halved? = some key →
        lastFor key m.world.capacities = some (x.after.pool.freeOn key) := by
  have hnow := Mirroring.of_course ⟨agrees_empty limit rfl, rfl, fun _ _ hj => by cases hj⟩
    ⟨l, rfl, hl⟩ rfl (fun _ => rfl) hasks h
  refine (hnow.mirrored_iff_touches hdone).trans ⟨fun hright key x hlast _ => hright key x hlast,
    fun hdoubtful key x hlast => ?_⟩
  by_cases hd : (∃ told, x.item = .report [] told) ∨ x.halved? = some key
  · exact hdoubtful key x hlast hd
  · rw [not_or, not_exists] at hd
    exact hnow.told_at_touch hlast hd.1 hd.2

/-! ### A report that comes too late -/

/-- A worker is registered. -/
def equipping : Machine :=
  asked ((World.fresh .fifo [] false 8).withListener {}) 0
    (.addWorker (.permanent "n") (.cpus 1) default)

/-- A task is submitted, and bound to the worker. -/
def ordering : Machine :=
  asked (equipping.advance 5).world 1 (.submit (.single (.cpus 1) "h") .silent)

/-- A task that waits for a value is submitted. -/
def craving : Machine :=
  asked (ordering.advance 8).world 2 (.submit ((Submission.single (.cpus 1) "h").reading "out")
    .silent)

/-- The first task is done, with these values. -/
def producing (outputs : List ProducedValue) : Machine :=
  asked (craving.advance 6).world 3 (.complete 1 outputs)

/-- The moments until both tasks were submitted. -/
def cravingMoments : List Moment :=
  moments 6 craving ++ (moments 8 ordering ++ (moments 5 equipping ++ []))

/-- The moments if the first task produces nothing. -/
def idleMoments : List Moment := moments 6 (producing []) ++ cravingMoments

/-- The moments if the first task produces the value that the second waits for. -/
def fruitfulMoments : List Moment :=
  moments 14 (producing [⟨"out", "t", .ownFile "n" "/out"⟩]) ++ cravingMoments

theorem course_craving :
    Course (.quiet fun c => c.keepsMirror = true)
      ((World.fresh .fifo [] false 8).withListener {}) cravingMoments
      ⟨(craving.advance 6).world, []⟩ :=
  ((Course.start.call 0 5 (show _ = _ from rfl) (by decide +kernel)).call 1 8
    (show _ = _ from rfl) (by decide +kernel)).call 2 6 (show _ = _ from rfl) (by decide +kernel)

theorem course_idle :
    Course (.quiet fun c => c.keepsMirror = true)
      ((World.fresh .fifo [] false 8).withListener {}) idleMoments
      ⟨((producing []).advance 6).world, []⟩ :=
  course_craving.call 3 6 (show _ = _ from rfl) (by decide +kernel)

theorem course_fruitful :
    Course (.quiet fun c => c.keepsMirror = true)
      ((World.fresh .fifo [] false 8).withListener {}) fruitfulMoments
      ⟨((producing [⟨"out", "t", .ownFile "n" "/out"⟩]).advance 14).world, []⟩ :=
  course_craving.call 3 14 (show _ = _ from rfl) (by decide +kernel)

/-- The value of the first task lets the second be bound before the listener is told that the first
is done: it takes the worker to be free, and nothing is free there. -/
theorem not_mirrored_fruitful :
    Course (.quiet fun c => c.keepsMirror = true)
        ((World.fresh .fifo [] false 8).withListener {}) fruitfulMoments
        ⟨((producing [⟨"out", "t", .ownFile "n" "/out"⟩]).advance 14).world, []⟩ ∧
      ¬ ((producing [⟨"out", "t", .ownFile "n" "/out"⟩]).advance 14).world.Mirrored := by
  refine ⟨course_fruitful, fun hm => ?_⟩
  have hfree : ((producing [⟨"out", "t", .ownFile "n" "/out"⟩]).advance 14).world.pool.freeOn?
      (.permanent "n") = some .empty := by decide +kernel
  have htold : lastFor (.permanent "n")
      ((producing [⟨"out", "t", .ownFile "n" "/out"⟩]).advance 14).world.capacities =
        some (.cpus 1) := by decide +kernel
  have hsame := htold.symm.trans (hm.registered hfree)
  revert hsame
  decide +kernel

/-- If the first task produces nothing, then the listener is told in time. -/
theorem mirrored_idle : ((producing []).advance 6).world.Mirrored := by
  have hkeys : idleMoments.all (fun x => x.halved?.isNone &&
      x.item.capacities.all fun r => r.1 = .permanent "n") = true := by decide +kernel
  have hright : (lastTouch? idleMoments (.permanent "n")).map (fun x =>
      x.after.pool.freeOn (.permanent "n")) =
        lastFor (.permanent "n") ((producing []).advance 6).world.capacities := by decide +kernel
  refine (Course.mirrored_iff (fun hc => hc) rfl course_idle rfl).mpr fun key x hlast _ => ?_
  have hx := List.all_eq_true.mp hkeys x (List.mem_of_find?_eq_some hlast)
  rw [Bool.and_eq_true, Option.isNone_iff_eq_none] at hx
  have htouch := List.find?_some hlast
  rw [Moment.touches, hx.1, decide_eq_false (Option.some_ne_none _).symm, Bool.or_false] at htouch
  obtain ⟨free, hfree⟩ := Option.isSome_iff_exists.mp htouch
  obtain rfl : key = .permanent "n" :=
    of_decide_eq_true (List.all_eq_true.mp hx.2 _ (mem_of_lastFor hfree))
  rw [← hright, hlast]
  rfl

end Machine

end TaskGrid
