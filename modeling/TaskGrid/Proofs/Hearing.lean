import TaskGrid.Proofs.Lifecycle

/-!
# What monitors hear

Events are collected while the table changes and are delivered afterwards, one item after the
other, and sessions pass on what they are told.  In between, other items run: values are
registered before the completion that they belong to is told, and whatever waits for them may be
bound meanwhile.  Still every monitor hears the life of an action in order.

What carries the argument is that what was heard of an action and what is still to be delivered,
one after the other, is always what the table says (`Recorded`).  Deliveries leave that list as it
is; whatever moves a live action on appends to it, and can do so because everything about that
action has been delivered by then: on the agenda, deliveries about live actions come before all
that could move an action on (`Orderly`).

* `Monitor.hearers`, `World.heard`: who hears what.
* `Item.dues`: what is still to be delivered.
* `Life`: what there is to tell about an action in all.
* `Machine.Course.heard_lifecycle`: what monitors hear of an action in any run.
-/

namespace TaskGrid

open Item (Tacit)

/-! ## Who hears -/

namespace Monitor

/-- Those to whom a monitor passes on what it is told. -/
def relays : Monitor → List Monitor
  | session _ inner => inner :: inner.relays
  | _ => []

/-- Those who hear what a monitor is told. -/
def hearers (m : Monitor) : List Monitor := m :: m.relays

theorem sizeOf_lt_of_mem_relays {a m : Monitor} (h : a ∈ m.relays) : sizeOf a < sizeOf m := by
  induction m with
  | session app inner ih =>
    have hinner : sizeOf inner < sizeOf (session app inner) := by
      rw [session.sizeOf_spec]
      omega
    rcases List.mem_cons.mp h with rfl | h
    · exact hinner
    · exact Nat.lt_trans (ih h) hinner
  | _ => cases h

/-- Nobody passes anything on to itself. -/
theorem notMem_relays (m : Monitor) : m ∉ m.relays :=
  fun h => Nat.lt_irrefl _ (sizeOf_lt_of_mem_relays h)

end Monitor

/-- What a monitor was told about an action. -/
def World.heard (w : World) (a : Monitor) (id : Nat) : List Event :=
  (w.deliveries.filter fun x => x.1 = a ∧ x.2.action = id).map Prod.snd

/-- What a hearer is to hear of what is told. -/
def toHear (a : Monitor) (es : List (Monitor × Event)) : List Event :=
  (es.filter fun x => a ∈ x.1.hearers).map Prod.snd

@[simp] theorem toHear_nil (a : Monitor) : toHear a [] = [] := rfl

theorem toHear_map (a m : Monitor) (l : List Event) :
    toHear a (l.map (Prod.mk m)) = if a ∈ m.hearers then l else [] := by
  unfold toHear
  split
  · next h =>
    rw [List.filter_eq_self.mpr, List.map_map]
    · exact List.map_id l
    · intro x hx
      obtain ⟨e, -, rfl⟩ := List.mem_map.mp hx
      exact decide_eq_true h
  · next h =>
    rw [List.filter_eq_nil_iff.mpr, List.map_nil]
    intro x hx
    obtain ⟨e, -, rfl⟩ := List.mem_map.mp hx
    exact fun he => h (of_decide_eq_true he)

namespace Item

/-- What a monitor will hear about an action when an item is carried out. -/
def due (a : Monitor) (id : Nat) : Item → List Event
  | .deliver m e => if a ∈ m.hearers ∧ e.action = id then [e] else []
  | .note (.delivered m e) => if m = a ∧ e.action = id then [e] else []
  | _ => []

/-- What a monitor will hear about an action when the items of a list are carried out. -/
def dues (a : Monitor) (id : Nat) (l : List Item) : List Event := l.flatMap (due a id)

variable {a : Monitor} {id : Nat} {j : Item} {l r : List Item}

@[simp] theorem dues_nil (a : Monitor) (id : Nat) : dues a id [] = [] := rfl

@[simp] theorem dues_cons (a : Monitor) (id : Nat) (j : Item) (l : List Item) :
    dues a id (j :: l) = due a id j ++ dues a id l := rfl

@[simp] theorem dues_append (a : Monitor) (id : Nat) (l r : List Item) :
    dues a id (l ++ r) = dues a id l ++ dues a id r := List.flatMap_append

/-- Nothing is due of an item that tells nothing about the action. -/
theorem due_eq_nil (h : ∀ m e, j.delivery? = some (m, e) → e.action ≠ id) : due a id j = [] := by
  cases j with
  | deliver m e => exact if_neg fun hc => h m e rfl hc.2
  | note n =>
    cases n with
    | delivered m e => exact if_neg fun hc => h m e rfl hc.2
    | _ => rfl
  | _ => rfl

theorem dues_eq_nil (h : ∀ j ∈ l, ∀ m e, j.delivery? = some (m, e) → e.action ≠ id) :
    dues a id l = [] :=
  List.flatMap_eq_nil_iff.mpr fun j hj => due_eq_nil (h j hj)

/-- The items of a list tell no monitor anything. -/
def Mute (l : List Item) : Prop := ∀ j ∈ l, j.delivery? = none

@[simp] theorem mute_nil : Mute [] := fun _ h => by cases h

@[simp] theorem mute_cons : Mute (j :: l) ↔ j.delivery? = none ∧ Mute l := List.forall_mem_cons

@[simp] theorem mute_append : Mute (l ++ r) ↔ Mute l ∧ Mute r := List.forall_mem_append

theorem mute_map {α : Type} {f : α → Item} (l : List α) (h : ∀ a, (f a).delivery? = none) :
    Mute (l.map f) := by
  intro j hj
  obtain ⟨a, -, rfl⟩ := List.mem_map.mp hj
  exact h a

theorem mute_of_tacit (h : Tacit l) : Mute l := by
  intro j hj
  have ht := h j hj
  cases j with
  | note n =>
    rw [isTacit, Notice.isAside, Bool.and_eq_true, Option.isNone_iff_eq_none] at ht
    exact ht.1
  | deliver => cases ht
  | _ => rfl

theorem dues_of_mute (h : Mute l) (a : Monitor) (id : Nat) : dues a id l = [] :=
  dues_eq_nil fun j hj m e he => by rw [h j hj] at he; cases he

theorem dues_deliver (a : Monitor) (id : Nat) (es : List (Monitor × Event)) :
    dues a id (es.map fun x => deliver x.1 x.2) = toHear a (about id es) := by
  induction es with
  | nil => rfl
  | cons x es ih =>
    rw [List.map_cons, dues_cons, ih]
    by_cases hid : x.2.action = id <;> by_cases ha : a ∈ x.1.hearers <;>
      simp [due, about, toHear, hid, ha]

theorem dues_ofOutbox (a : Monitor) (id : Nat) (o : Outbox) :
    dues a id (ofOutbox o) = toHear a (about id o.events) := by
  unfold ofOutbox
  rw [dues_append, dues_deliver, dues_cons, dues_of_mute (mute_map _ fun _ => rfl)]
  simp [due]

/-- What there is to tell is told as it is. -/
theorem mem_events_of_ofOutbox {o : Outbox} {m : Monitor} {e : Event} (h : j ∈ ofOutbox o)
    (hj : j.delivery? = some (m, e)) : (m, e) ∈ o.events := by
  unfold ofOutbox at h
  rcases List.mem_append.mp h with h | h
  · obtain ⟨x, hx, rfl⟩ := List.mem_map.mp h
    exact Option.some_inj.mp hj ▸ hx
  · rcases List.mem_cons.mp h with rfl | h
    · cases hj
    · obtain ⟨x, -, rfl⟩ := List.mem_map.mp h
      cases hj

theorem mute_ofHooks (d : Pool.Departure) : Mute (ofHooks d) := mute_map _ fun _ => rfl

/-! ## The order of the agenda -/

/-- Whether an item only tells, and no end. -/
def isMild : Item → Bool
  | .prompt _ => true
  | .deliver _ e => !e.isTerminal
  | _ => false

/-- An item tells nothing, or it tells about an action that is over. -/
def Past (s : Schedule) (j : Item) : Prop :=
  ∀ m e, j.delivery? = some (m, e) → s.actions.get? e.action = none ∧ e.action < s.nextId

theorem past_of_mute {s : Schedule} (h : j.delivery? = none) : j.Past s := fun m e he => by
  rw [h] at he
  cases he

theorem dues_of_past {s : Schedule} {x : Entry} (h : ∀ j ∈ l, j.Past s)
    (hx : s.actions.get? id = some x) (a : Monitor) : dues a id l = [] :=
  dues_eq_nil fun j hj m e he hid => by
    rw [← hid, (h j hj m e he).1] at hx
    cases hx

end Item

/-- What is told about live actions is told before all that could move an action on. -/
def Orderly (s : Schedule) (l : List Item) : Prop :=
  ∃ front back, l = front ++ back ∧ (∀ j ∈ front, j.isMild = true) ∧ ∀ j ∈ back, j.Past s

theorem orderly_of_past {s : Schedule} {l : List Item} (h : ∀ j ∈ l, j.Past s) : Orderly s l :=
  ⟨[], l, rfl, List.forall_mem_nil _, h⟩

theorem orderly_of_mute {s : Schedule} {l : List Item} (h : Item.Mute l) : Orderly s l :=
  orderly_of_past fun j hj => Item.past_of_mute (h j hj)

theorem Orderly.append {s : Schedule} {l r : List Item} (h : Orderly s l)
    (hr : ∀ j ∈ r, j.Past s) : Orderly s (l ++ r) := by
  obtain ⟨front, back, rfl, hfront, hback⟩ := h
  exact ⟨front, back ++ r, List.append_assoc .., hfront, fun j hj =>
    (List.mem_append.mp hj).elim (hback j) (hr j)⟩

/-- What is told of actions that go on comes first. -/
theorem orderly_ofOutbox {s : Schedule} {o : Outbox} {r : List Item}
    (h : ∀ x ∈ o.events, x.2.isTerminal = false) (hr : Item.Mute r) :
    Orderly s (Item.ofOutbox o ++ r) := by
  refine ⟨o.events.map fun x => .deliver x.1 x.2, _, List.append_assoc .., fun j hj => ?_,
    fun j hj => Item.past_of_mute ?_⟩
  · obtain ⟨x, hx, rfl⟩ := List.mem_map.mp hj
    show (!x.2.isTerminal) = true
    rw [h x hx]
    rfl
  · have hmute : Item.Mute (Item.report o.assignments o.capacity ::
        (o.drained.map fun x => Item.retire x.1 x.2) ++ r) := by
      simp only [List.cons_append, Item.mute_cons, Item.mute_append]
      exact ⟨rfl, Item.mute_map _ fun _ => rfl, hr⟩
    exact hmute j hj

/-! ## What an item does -/

namespace Moment

/-- An action is accepted at a moment, with a monitor. -/
def Accepts (x : Moment) (id : Nat) (m : Monitor) : Prop :=
  x.world.schedule.nextId = id ∧ x.deed.accepted? = some m

/-- An action ends at a moment: it is concluded, or it fails because it was bound to a worker that
is lost. -/
def Ends (x : Moment) (id : Nat) (ending : Ending) : Prop :=
  x.deed = .conclude id ending ∨ ending = .failed .nodeLost ∧
    ∃ key ids, x.deed = .fail key ids ∧ id ∈ ids ∧ x.world.schedule.bindingOf? id = some key

theorem accepted_later {t : List Moment} {x : Moment} {id : Nat} {m : Monitor}
    (h : ∃ y ∈ t, y.Accepts id m) : ∃ y ∈ x :: t, y.Accepts id m := by
  obtain ⟨y, hy, ha⟩ := h
  exact ⟨y, List.mem_cons_of_mem x hy, ha⟩

end Moment

/-- What becomes of an action at a moment that leads to a table, if `es` is what is told. -/
inductive Fate (x : Moment) (t : Schedule) (es : List (Monitor × Event)) (id : Nat) : Prop where
  /-- It goes on, if there is such an action. -/
  | on (leads : x.world.schedule.Leads t es id) (old : ∀ m, ¬ x.Accepts id m)
  /-- It is accepted. -/
  | begun {m : Monitor} (accepts : x.Accepts id m) (begins : t.Begins es id m)
  /-- It ends. -/
  | ended {ending : Ending} (how : x.Ends id ending)
    (ends : x.world.schedule.Ends t es id ending)

/-- What the item of a moment tells, and what becomes of the actions. -/
structure Tells (x : Moment) (e : World.Effect) (es : List (Monitor × Event)) : Prop where
  /-- What is told is what monitors will hear. -/
  dues : ∀ a id, Item.dues a id e.2 = toHear a (about id es)
  /-- It is told about what becomes of the actions. -/
  fate : ∀ id, Fate x e.1.schedule es id
  /-- What is told about live actions is told first. -/
  orderly : Orderly e.1.schedule e.2

/-- What is past stays past. -/
theorem Item.Past.later {j : Item} {x : Moment} {e : World.Effect} {es : List (Monitor × Event)}
    (h : j.Past x.world.schedule) (htells : Tells x e es)
    (hnext : x.world.schedule.nextId ≤ e.1.schedule.nextId) : j.Past e.1.schedule := by
  intro m ev hj
  obtain ⟨hgone, hold⟩ := h m ev hj
  refine ⟨?_, Nat.lt_of_lt_of_le hold hnext⟩
  cases htells.fate ev.action with
  | on leads _ =>
    cases leads with
    | aside _ after _ => exact after
    | on before _ _ _ => rw [hgone] at before; cases before
  | begun accepts _ => exact absurd accepts.1 (Nat.ne_of_gt hold)
  | ended _ ends =>
    obtain ⟨y, hy, -⟩ := ends
    rw [hgone] at hy
    cases hy

section Tells

variable {w : World} {i : Item} {a : List Item}

/-- An item that moves actions on where nothing is told. -/
theorem tells_of_mute {e : World.Effect} {o : Outbox} (ha : w.schedule.Advances {} e.1.schedule o)
    (ho : o.events = []) (hm : Item.Mute e.2) (hd : (Moment.deed ⟨w, i⟩).accepted? = none) :
    Tells ⟨w, i⟩ e [] := by
  obtain ⟨es, hes, -, hleads⟩ := ha
  obtain rfl : [] = es := ho.symm.trans hes
  exact ⟨fun a id => Item.dues_of_mute hm a id,
    fun id => .on (hleads id) fun m ⟨_, he⟩ => (by rw [hd] at he; cases he),
    orderly_of_mute hm⟩

/-- An item that moves actions on and tells it first. -/
theorem tells_of_advances {e : World.Effect} {o : Outbox} {r : List Item}
    (ha : w.schedule.Advances {} e.1.schedule o) (he : e.2 = Item.ofOutbox o ++ r)
    (hm : Item.Mute r) (hd : (Moment.deed ⟨w, i⟩).accepted? = none) :
    Tells ⟨w, i⟩ e o.events := by
  obtain ⟨es, hes, hgo, hleads⟩ := ha
  obtain rfl : o.events = es := hes
  refine ⟨fun a id => ?_,
    fun id => .on (hleads id) fun m ⟨_, he⟩ => (by rw [hd] at he; cases he), ?_⟩
  · rw [he, Item.dues_append, Item.dues_ofOutbox, Item.dues_of_mute hm, List.append_nil]
  · rw [he]
    exact orderly_ofOutbox hgo hm

/-- A pass that nothing disturbs tells its bindings first. -/
theorem tells_runPass (ha : Agrees w.schedule w.pool a) (hcalm : w.disturbances = [])
    (token : Option Nat) (hd : Moment.deed ⟨w, i⟩ = .pass) :
    ∃ es, Tells ⟨w, i⟩ (w.runPass token) es := by
  have hsteady := ha.steady w.catalog w.scored
  rw [← hcalm] at hsteady
  have hgoes := Pass.goes_run w.policy hsteady
  refine ⟨_, tells_of_advances (r := token.toList.map fun t => .reply t
    (.assignments w.passed.outbox.assignments)) hgoes.advances ?_ (Item.mute_map _ fun _ => rfl)
    (by rw [hd]; rfl)⟩
  have hnone : w.passed.incidents = [] := hgoes.incidents
  show w.passed.incidents.map Item.ofIncident ++ _ ++ _ = _
  rw [hnone]
  rfl

/-- Names that wake tell it first, if anybody becomes ready. -/
theorem tells_wake (ha : Agrees w.schedule w.pool a) {name : String}
    (hd : Moment.deed ⟨w, i⟩ = .wake name) : ∃ es, Tells ⟨w, i⟩ (w.wake name) es := by
  have hadv := w.schedule.advances_wake name
  have hsub : (Moment.deed ⟨w, i⟩).accepted? = none := by
    rw [hd]
    rfl
  unfold World.wake
  dsimp only
  split
  · next hr =>
    have hnone := Schedule.events_wake_of_ready_eq ha.sound hr
    exact ⟨[], tells_of_mute hadv hnone Item.mute_nil hsub⟩
  · exact ⟨_, tells_of_advances hadv rfl (by simp [Item.delivery?]) hsub⟩

/-- A submission tells how it begins. -/
theorem tells_submit {task : Submission} {m : Monitor} {tail : List Item}
    (hd : Moment.deed ⟨w, i⟩ = .submit task m) (tacit : Tacit tail) :
    ∃ es, Tells ⟨w, i⟩ ((w.submit task m).2.1, (w.submit task m).2.2 ++ tail) es := by
  obtain ⟨hgo, hbegins, hother⟩ := w.schedule.begins_accept w.catalog task m
  have hmute : Item.Mute (.pass none :: tail) := by
    simp [Item.mute_of_tacit tacit, Item.delivery?]
  have hitems : (w.submit task m).2.2 ++ tail =
      Item.ofOutbox (w.schedule.accept w.catalog task m).2.2 ++ .pass none :: tail :=
    List.append_assoc ..
  refine ⟨(w.schedule.accept w.catalog task m).2.2.events, fun a id => ?_, fun id => ?_, ?_⟩
  · rw [hitems, Item.dues_append, Item.dues_ofOutbox, Item.dues_of_mute hmute, List.append_nil]
  · by_cases hid : id = w.schedule.nextId
    · exact .begun (m := m) ⟨hid.symm, by rw [hd]; rfl⟩ (hid ▸ hbegins)
    · exact .on (hother id hid) fun _ ⟨he, _⟩ => hid he.symm
  · rw [hitems]
    exact orderly_ofOutbox hgo hmute

/-- An action that is concluded tells its end. -/
theorem tells_conclude (ha : Agrees w.schedule w.pool a) {id : Nat} {x : Entry} {ending : Ending}
    {tail : List Item} (hd : Moment.deed ⟨w, i⟩ = .conclude id ending)
    (live : w.schedule.actions.get? id = some x) (suits : ending.suits x.state = true)
    (tacit : Tacit tail) :
    ∃ es, Tells ⟨w, i⟩ ((w.conclude x ending.values (ending.events id) ending.state).1,
      (w.conclude x ending.values (ending.events id) ending.state).2 ++ tail) es := by
  have hnamed : x.action.id = id :=
    ha.sound.named (Schedule.standing?_eq_some_iff.mpr ⟨x, live, rfl⟩)
  have hold : id < w.schedule.nextId :=
    ha.sound.old (Schedule.standing?_eq_some_iff.mpr ⟨x, live, rfl⟩)
  obtain ⟨hends, hmem, hother⟩ := Schedule.ends_conclude live hnamed w.pool suits
  have hnext := (w.schedule.conclude_frame w.pool x (ending.events id) ending.state).2.2
  have hfirst : Item.Mute (ending.values.map fun v => .addReplica v.name v.location none) :=
    Item.mute_map _ fun _ => rfl
  have hmute : Item.Mute (.pass none :: tail) := by
    simp [Item.mute_of_tacit tacit, Item.delivery?]
  have hitems : (w.conclude x ending.values (ending.events id) ending.state).2 ++ tail =
      ending.values.map (fun v => .addReplica v.name v.location none) ++
        (Item.ofOutbox (w.schedule.conclude w.pool x (ending.events id) ending.state).2.2 ++
          .pass none :: tail) := by
    simp [World.conclude]
  refine ⟨(w.schedule.conclude w.pool x (ending.events id) ending.state).2.2.events,
    fun a i => ?_, fun j => ?_, orderly_of_past fun j hj m e he => ?_⟩
  · rw [hitems, Item.dues_append, Item.dues_append, Item.dues_ofOutbox,
      Item.dues_of_mute hmute, Item.dues_of_mute hfirst, List.append_nil]
    rfl
  · by_cases hj : j = id
    · exact .ended (.inl (hj ▸ hd)) (hj ▸ hends)
    · refine .on (hother j hj) fun m hm => ?_
      have hdeed := hm.2
      rw [hd] at hdeed
      cases hdeed
  · have hgone : e.action = id := by
      have hj : j ∈ (w.conclude x ending.values (ending.events id) ending.state).2 ++ tail := hj
      rw [hitems] at hj
      rcases List.mem_append.mp hj with hj | hj
      · rw [hfirst j hj] at he
        cases he
      · rcases List.mem_append.mp hj with hj | hj
        · exact hmem _ (Item.mem_events_of_ofOutbox hj he)
        · rw [hmute j hj] at he
          cases he
    obtain ⟨y, -, hnone, -⟩ := hends
    rw [hgone]
    exact ⟨hnone, hnext ▸ hold⟩

/-- The actions of a lost worker tell their end. -/
theorem tells_failBound (ha : Agrees w.schedule w.pool a) {key : WorkerKey} {ids : List Nat}
    (hd : Moment.deed ⟨w, i⟩ = .fail key ids) : ∃ es, Tells ⟨w, i⟩ (w.failBound key ids) es := by
  have hends := w.schedule.endsLost_abandon key ids
  have hnext := w.schedule.nextId_abandon key ids
  obtain ⟨o, ho, hitems⟩ : ∃ o : Outbox, o.events = (w.schedule.abandon key ids).2.events ∧
      (w.failBound key ids).2 = Item.ofOutbox o :=
    ⟨{ (w.schedule.abandon key ids).2 with
        capacity := (w.schedule.abandon key ids).2.capacity ++ [(key, .empty)] }, rfl, rfl⟩
  refine ⟨(w.schedule.abandon key ids).2.events, fun a id => ?_, fun id => ?_,
    orderly_of_past fun j hj m e he => ?_⟩
  · rw [hitems, Item.dues_ofOutbox, ho]
  · rcases hends id with ⟨hsame, hnil⟩ | ⟨hid, hbound, hend⟩
    · exact .on (.same hsame hnil) fun m ⟨_, he⟩ => by rw [hd] at he; cases he
    · exact .ended (.inr ⟨rfl, key, ids, hd, hid, hbound⟩) hend
  · have hmem : (m, e) ∈ (w.schedule.abandon key ids).2.events :=
      ho ▸ Item.mem_events_of_ofOutbox (hitems ▸ hj) he
    rcases hends e.action with ⟨-, hnil⟩ | ⟨-, -, x, hx, hgone, -⟩
    · have hin : (m, e) ∈ about e.action (w.schedule.abandon key ids).2.events :=
        List.mem_filter.mpr ⟨hmem, decide_eq_true rfl⟩
      rw [hnil] at hin
      cases hin
    · exact ⟨hgone, hnext ▸ ha.sound.old (Schedule.standing?_eq_some_iff.mpr ⟨x, hx, rfl⟩)⟩

/-- Whatever tells a monitor nothing at once tells what becomes of the actions. -/
theorem tells_carryOut (ha : Agrees w.schedule w.pool a) (hcalm : w.disturbances = [])
    (hi : i.delivery? = none) (hsend : ∀ token app ev, i ≠ .obey token (.tellSession app ev))
    (hpool : ∀ token o, i ≠ .obey token (.pool o)) :
    ∃ es, Tells ⟨w, i⟩ (w.carryOut i) es := by
  have hdoes := w.does_carryOut i
  have hby := Moment.doneBy_deed ⟨w, i⟩
  have htold := (Moment.told_deed w i).1
  have hmoves := hdoes.moves
  generalize w.carryOut i = e at hdoes hmoves ⊢
  generalize hd : Moment.deed ⟨w, i⟩ = d at hdoes hby htold hmoves
  have hmute (hs : e.1.schedule = w.schedule) (hm : Item.Mute e.2)
      (hd' : d.accepted? = none) : ∃ es, Tells ⟨w, i⟩ e es :=
    ⟨[], tells_of_mute (o := {}) (hs ▸ .refl _ _) rfl hm (hd.symm ▸ hd')⟩
  cases hdoes with
  | idle still tacit _ => exact hmute still.schedule (Item.mute_of_tacit tacit) rfl
  | note n => exact hmute rfl Item.mute_nil rfl
  | send m ev tacit =>
    obtain ⟨token, app, he⟩ := hby
    exact absurd he (hsend token app ev)
  | deliver m ev =>
    rw [← htold] at hi
    cases hi
  | tellHook hook r =>
    refine hmute (hmoves.eq_self rfl) (fun j hj => ?_) rfl
    obtain ⟨orders, rfl⟩ := World.mem_tellHook hj
    rfl
  | pass token => exact tells_runPass ha hcalm token hd
  | wake name => exact tells_wake ha hd
  | submit task m tacit => exact tells_submit hd tacit
  | conclude ending live suits tacit => exact tells_conclude ha hd live suits tacit
  | conclude_refused _ tacit => exact hmute rfl (Item.mute_of_tacit tacit) rfl
  | run marked tacit =>
    exact ⟨[], tells_of_mute (Schedule.advances_markRunning marked) rfl (Item.mute_of_tacit tacit)
      (by rw [hd]; rfl)⟩
  | run_refused _ tacit => exact hmute rfl (Item.mute_of_tacit tacit) rfl
  | fail key ids => exact tells_failBound ha hd
  | offer key offered adaptor tacit =>
    exact hmute rfl (by simp [World.addWorker, Item.mute_of_tacit tacit, Item.delivery?]) rfl
  | reduce key c tacit => exact hmute rfl (Item.mute_of_tacit tacit) rfl
  | remove key hook tacit =>
    refine hmute (hmoves.eq_self rfl) ?_ rfl
    have htail := Item.mute_of_tacit tacit
    unfold World.removeWorker
    dsimp only
    split
    · exact htail
    · exact htail
    · simp [World.depart, Item.mute_ofHooks, htail, Item.delivery?]
  | lose lost tacit =>
    refine hmute rfl ?_ rfl
    simp [World.depart, Item.mute_ofHooks, Item.mute_of_tacit tacit, Item.delivery?]
  | lose_refused _ tacit => exact hmute rfl (Item.mute_of_tacit tacit) rfl
  | retire key seq =>
    refine hmute (hmoves.eq_self rfl) ?_ rfl
    unfold World.retire
    split
    · exact Item.mute_nil
    · simp [World.depart, Item.mute_ofHooks, Item.delivery?]
  | pool token o =>
    obtain ⟨token, he⟩ := hby
    exact absurd he (hpool token o)

end Tells

/-! ## What is passed on -/

theorem World.heard_carryOut (w : World) (i : Item) (a : Monitor) (id : Nat) :
    (w.carryOut i).1.heard a id = w.heard a id ++
      (i.delivery?.toList.filter fun x => x.1 = a ∧ x.2.action = id).map Prod.snd := by
  unfold heard
  rw [World.deliveries_carryOut, List.filter_append, List.map_append]

/-- An item that only tells, or asks the outside. -/
structure Relays (w : World) (i : Item) : Prop where
  /-- The actions stay as they are. -/
  schedule : (w.carryOut i).1.schedule = w.schedule
  /-- What was due is heard or still due. -/
  account : ∀ a id, (w.carryOut i).1.heard a id ++ Item.dues a id (w.carryOut i).2 =
    w.heard a id ++ Item.due a id i
  /-- What is mild leads to what is mild. -/
  mild : i.isMild = true → ∀ j ∈ (w.carryOut i).2, j.isMild = true
  /-- What is past leads to what is past. -/
  past : ∀ s, i.Past s → ∀ j ∈ (w.carryOut i).2, j.Past s
  /-- No action is accepted. -/
  never : ∀ id m, ¬ Moment.Accepts ⟨w, i⟩ id m

/-- A monitor hears an event, and so will those to whom it passes it on. -/
theorem relays_deliver (w : World) (m : Monitor) (e : Event) : Relays w (.deliver m e) where
  schedule := by
    have hmoves := (w.does_carryOut (.deliver m e)).moves
    exact hmoves.eq_self rfl
  account a id := by
    rw [World.heard_carryOut, List.append_assoc]
    refine congrArg _ ?_
    have hhearers : a ∈ m.hearers ↔ m = a ∨ a ∈ m.relays := by
      rw [Monitor.hearers, List.mem_cons, eq_comm]
    have hself : m = a → a ∉ m.relays := fun h => h ▸ m.notMem_relays
    have hitems : Item.dues a id (w.deliver m e).2 =
        if a ∈ m.relays ∧ e.action = id then [e] else [] := by
      unfold World.deliver
      cases m with
      | session app inner =>
        have hmute : Item.Mute (if e.isTerminal then [.closeSession app] else []) := by
          split <;> simp [Item.delivery?]
        dsimp only
        rw [Item.dues_cons, Item.dues_of_mute hmute, List.append_nil]
        rfl
      | mailbox id => dsimp only; split <;> rfl
      | _ => rfl
    show _ ++ Item.dues a id (w.deliver m e).2 = _
    rw [hitems]
    by_cases hid : e.action = id <;> by_cases hm : m = a <;> by_cases hr : a ∈ m.relays <;>
      simp_all [Item.delivery?, Item.due]
  mild hmild j hj := by
    have hgo : e.isTerminal = false := by simpa [Item.isMild] using hmild
    rcases World.mem_deliver hj with ⟨p, rfl⟩ | ⟨app, inner, -, rfl | ⟨hend, -⟩⟩
    · rfl
    · exact hmild
    · rw [hgo] at hend
      cases hend
  past s hpast j hj := by
    rcases World.mem_deliver hj with ⟨p, rfl⟩ | ⟨app, inner, -, rfl | ⟨-, rfl⟩⟩
    · exact Item.past_of_mute rfl
    · rintro _ _ ⟨⟩
      exact hpast m e rfl
    · exact Item.past_of_mute rfl
  never _ _ := fun ⟨_, h⟩ => by cases h

theorem relays_note (w : World) (n : Notice) : Relays w (.note n) where
  schedule := rfl
  account a id := by
    rw [World.heard_carryOut, List.append_assoc]
    refine congrArg _ ((List.append_nil _).trans ?_)
    cases n with
    | delivered m e =>
      by_cases hc : m = a ∧ e.action = id <;> simp [Item.delivery?, Notice.delivery?, Item.due, hc]
    | _ => rfl
  mild h := by cases h
  past _ _ _ hj := by cases hj
  never _ _ := fun ⟨_, h⟩ => by cases h

theorem relays_prompt (w : World) (p : Prompt) : Relays w (.prompt p) where
  schedule := rfl
  account a id := by
    rw [World.heard_carryOut, List.append_assoc]
    rfl
  mild _ _ hj := by cases hj
  past _ _ _ hj := by cases hj
  never _ _ := fun ⟨_, h⟩ => by cases h

/-- Whatever tells a monitor something at once only passes it on. -/
theorem relays_of_delivery? {w : World} {i : Item} (h : i.delivery? ≠ none) : Relays w i := by
  cases i with
  | deliver m e => exact relays_deliver w m e
  | note n => exact relays_note w n
  | _ => exact absurd rfl h

theorem relays_of_isMild {w : World} {i : Item} (h : i.isMild = true) : Relays w i := by
  cases i with
  | deliver m e => exact relays_deliver w m e
  | prompt p => exact relays_prompt w p
  | _ => cases h

/-! ## The account of an action -/

/-- What there is to tell about an action in all: what led to its state, or to the one in which it
ended, and then its end. -/
inductive Life (t : List Moment) (s : Schedule) (id : Nat) : List Event → Prop where
  /-- It is live. -/
  | going {x : Entry} {l : List Event} (live : s.actions.get? id = some x)
    (opening : Opening id x.state l) : Life t s id l
  /-- It ended, at a moment at which it could end so. -/
  | ended {y : Moment} {x : Entry} {ending : Ending} {l : List Event}
    (gone : s.actions.get? id = none) (mem : y ∈ t) (how : y.Ends id ending)
    (live : y.world.schedule.actions.get? id = some x) (suits : ending.suits x.state = true)
    (opening : Opening id x.state l) : Life t s id (l ++ ending.events id)

variable {t : List Moment} {s s' : Schedule} {x : Moment} {id : Nat} {l : List Event}

/-- Whatever is told about an action comes in order. -/
theorem Life.regular (h : Life t s id l) : Regular l := by
  cases h with
  | going _ opening => exact opening.regular
  | ended _ _ _ _ suits opening => exact opening.regular_append suits

theorem Life.later (h : Life t s id l) (hs : s'.actions.get? id = s.actions.get? id) :
    Life (x :: t) s' id l := by
  cases h with
  | going live opening => exact .going (hs.trans live) opening
  | ended gone mem how live suits opening =>
    exact .ended (hs.trans gone) (List.mem_cons_of_mem x mem) how live suits opening

namespace Machine

/-- What a monitor heard about an action, and then what it is still to hear. -/
def account (m : Machine) (a : Monitor) (id : Nat) : List Event :=
  m.world.heard a id ++ Item.dues a id m.agenda

/-- What was heard of an action and is still to be delivered is what there is to tell. -/
inductive Recorded (t : List Moment) (m : Machine) (id : Nat) : Prop where
  /-- It was never accepted. -/
  | unheard (never : ∀ x ∈ t, ∀ mon, ¬ x.Accepts id mon)
    (gone : m.world.schedule.actions.get? id = none) (silent : ∀ a, m.account a id = [])
  /-- It was accepted with a monitor, and what there is to tell reaches its hearers. -/
  | known {k : Monitor} {l : List Event} (life : Life t m.world.schedule id l)
    (accepted : ∃ x ∈ t, x.Accepts id k) (only : ∀ x ∈ t, ∀ mon, x.Accepts id mon → mon = k)
    (old : id < m.world.schedule.nextId)
    (entry : ∀ x, m.world.schedule.actions.get? id = some x → x.monitor = k ∧ x.Follows id l)
    (told : ∀ a, m.account a id = if a ∈ k.hearers then l else [])

/-- Nothing happens to an action. -/
theorem Recorded.later {m m' : Machine} (h : Recorded t m id)
    (hs : m'.world.schedule.actions.get? id = m.world.schedule.actions.get? id)
    (hnext : m.world.schedule.nextId ≤ m'.world.schedule.nextId)
    (never : ∀ mon, ¬ x.Accepts id mon) (told : ∀ a, m'.account a id = m.account a id) :
    Recorded (x :: t) m' id := by
  cases h with
  | unheard never' gone silent =>
    refine .unheard (fun y hy => ?_) (hs.trans gone) fun a => (told a).trans (silent a)
    rcases List.mem_cons.mp hy with rfl | hy
    · exact never
    · exact never' y hy
  | known life accepted only old entry told' =>
    refine .known (life.later hs) (Moment.accepted_later accepted) (fun y hy mon' ha => ?_)
      (Nat.lt_of_lt_of_le old hnext) (fun z hz => entry z (hs ▸ hz))
      fun a => (told a).trans (told' a)
    rcases List.mem_cons.mp hy with rfl | hy
    · exact absurd ha (never mon')
    · exact only y hy mon' ha

/-- An item that only tells keeps all accounts. -/
theorem Recorded.relay {w : World} {i : Item} {rest : List Item}
    (h : Recorded t ⟨w, i :: rest⟩ id) (hr : Relays w i) :
    Recorded (⟨w, i⟩ :: t) (Machine.step ⟨w, i :: rest⟩) id := by
  rw [step_cons]
  refine h.later (by rw [hr.schedule]) (Nat.le_of_eq (by rw [hr.schedule]))
    (hr.never id) fun a => ?_
  unfold account
  rw [Item.dues_append, ← List.append_assoc, hr.account, Item.dues_cons, List.append_assoc]

/-- What becomes of an action is told after all that was told about it. -/
theorem Recorded.tell {w : World} {i : Item} {rest : List Item} {es : List (Monitor × Event)}
    (h : Recorded t ⟨w, i :: rest⟩ id) (hi : i.delivery? = none)
    (hrest : ∀ j ∈ rest, j.Past w.schedule) (htells : Tells ⟨w, i⟩ (w.carryOut i) es)
    (hnext : w.schedule.nextId ≤ (w.carryOut i).1.schedule.nextId)
    (hsound : (w.carryOut i).1.schedule.Sound) :
    Recorded (⟨w, i⟩ :: t) (Machine.step ⟨w, i :: rest⟩) id := by
  rw [step_cons]
  have hbefore (a : Monitor) :
      account ⟨w, i :: rest⟩ a id = w.heard a id ++ Item.dues a id rest := by
    unfold account
    rw [Item.dues_cons, Item.due_eq_nil fun m e he => by rw [hi] at he; cases he]
    rfl
  have hafter (a : Monitor) : account ⟨(w.carryOut i).1, (w.carryOut i).2 ++ rest⟩ a id =
      w.heard a id ++ (toHear a (about id es) ++ Item.dues a id rest) := by
    unfold account
    rw [Item.dues_append, htells.dues, World.heard_carryOut, hi]
    simp
  -- all about a live action is delivered, and what is new comes after it
  have hlive {x : Entry} {mon : Monitor} {l new : List Event}
      (hx : w.schedule.actions.get? id = some x)
      (htold : ∀ a, account ⟨w, i :: rest⟩ a id = if a ∈ mon.hearers then l else [])
      (hes : about id es = new.map (Prod.mk mon)) (a : Monitor) :
      account ⟨(w.carryOut i).1, (w.carryOut i).2 ++ rest⟩ a id =
        if a ∈ mon.hearers then l ++ new else [] := by
    have hl := htold a
    rw [hbefore, Item.dues_of_past hrest hx, List.append_nil] at hl
    rw [hafter, Item.dues_of_past hrest hx, hes, toHear_map, List.append_nil, hl]
    split <;> rfl
  cases htells.fate id with
  | on leads hnot =>
    cases leads with
    | aside before after told =>
      refine h.later (after.trans before.symm) hnext hnot fun a => ?_
      rw [hafter, told, toHear_nil, List.nil_append, hbefore]
    | @on x y before after monitor goes =>
      cases h with
      | unheard _ gone _ => rw [before] at gone; cases gone
      | @known mon l life accepted only old entry told =>
        obtain ⟨rfl, hfollows⟩ := entry x before
        obtain ⟨new, hes, hy⟩ := goes l hfollows
        refine .known (.going after hy.opening) (Moment.accepted_later accepted)
          (fun z hz mon' ha => ?_) (Nat.lt_of_lt_of_le old hnext) (fun z hz => ?_)
          (hlive before told hes)
        · rcases List.mem_cons.mp hz with rfl | hz
          · exact absurd ha (hnot mon')
          · exact only z hz mon' ha
        · rw [after] at hz
          obtain rfl := Option.some_inj.mp hz
          exact ⟨monitor, hy⟩
  | @begun mon accepts begins =>
    cases h with
    | known _ _ _ old _ _ => exact absurd accepts.1 (Nat.ne_of_gt old)
    | unheard never gone silent =>
      obtain ⟨y, new, hy, rfl, hes, hfollows⟩ := begins
      refine .known (k := y.monitor) (.going hy hfollows.opening)
        ⟨_, List.mem_cons_self, accepts⟩ (fun z hz mon' ha => ?_)
        (hsound.old (Schedule.standing?_eq_some_iff.mpr ⟨y, hy, rfl⟩)) (fun z hz => ?_) fun a => ?_
      · rcases List.mem_cons.mp hz with rfl | hz
        · exact Option.some_inj.mp (ha.2.symm.trans accepts.2)
        · exact absurd ha (never z hz mon')
      · rw [hy] at hz
        obtain rfl := Option.some_inj.mp hz
        exact ⟨rfl, hfollows⟩
      · have hnone := silent a
        rw [hbefore, List.append_eq_nil_iff] at hnone
        rw [hafter, hnone.1, hnone.2, hes, toHear_map, List.append_nil, List.nil_append]
  | @ended ending how ends =>
    obtain ⟨x, hx, hgone, hsuits, hes⟩ := ends
    cases h with
    | unheard _ gone _ => rw [hx] at gone; cases gone
    | @known mon l life accepted only old entry told =>
      obtain ⟨rfl, hfollows⟩ := entry x hx
      refine .known (.ended hgone List.mem_cons_self how hx hsuits hfollows.opening)
        (Moment.accepted_later accepted) (fun z hz mon' ha => ?_) (Nat.lt_of_lt_of_le old hnext)
        (fun z hz => by rw [hgone] at hz; cases hz) (hlive hx told (hes l hfollows))
      rcases List.mem_cons.mp hz with rfl | hz
      · exact absurd ha.1 (Nat.ne_of_gt old)
      · exact only z hz mon' ha

/-! ## Every step -/

/-- The agenda is in order, and every action is accounted for. -/
structure Attended (t : List Moment) (m : Machine) : Prop where
  /-- What is told about live actions comes first. -/
  orderly : Orderly m.world.schedule m.agenda
  /-- Every action is accounted for. -/
  recorded : ∀ id, Recorded t m id
  /-- No command tells a session an event that is none of the scheduler's. -/
  genuine : ∀ token c, .obey token c ∈ m.agenda → ∀ app e, c ≠ .tellSession app e

theorem Attended.step {w : World} {i : Item} {rest : List Item}
    (h : Attended t ⟨w, i :: rest⟩) (hag : InAgreement ⟨w, i :: rest⟩) :
    Attended (⟨w, i⟩ :: t) (Machine.step ⟨w, i :: rest⟩) := by
  have hturn := hag.turns
  have hgenuine : ∀ token c, .obey token c ∈ (w.carryOut i).2 ++ rest →
      ∀ app e, c ≠ .tellSession app e := by
    intro token c hj
    rcases List.mem_append.mp hj with hj | hj
    · exact absurd hj (hturn.not_obey token c)
    · exact h.genuine token c (List.mem_cons_of_mem i hj)
  obtain ⟨front, back, hl, hfront, hback⟩ := h.orderly
  cases front with
  | cons j front =>
    -- what comes first only tells
    obtain ⟨rfl, rfl⟩ := List.cons.inj hl
    have hr := relays_of_isMild (w := w) (hfront i List.mem_cons_self)
    refine ⟨⟨(w.carryOut i).2 ++ front, back, (List.append_assoc ..).symm, fun j hj => ?_,
      fun j hj => ?_⟩, fun id => (h.recorded id).relay hr, hgenuine⟩
    · exact (List.mem_append.mp hj).elim (hr.mild (hfront i List.mem_cons_self) j) fun hj =>
        hfront j (List.mem_cons_of_mem i hj)
    · rw [step_cons, hr.schedule]
      exact hback j hj
  | nil =>
    obtain rfl : i :: rest = back := hl
    have hrest : ∀ j ∈ rest, j.Past w.schedule := fun j hj => hback j (List.mem_cons_of_mem i hj)
    by_cases hi : i.delivery? = none
    · have hmem {token : Nat} {c : Command} (he : i = .obey token c) :
          .obey token c ∈ i :: rest := he ▸ List.mem_cons_self
      obtain ⟨es, htells⟩ := tells_carryOut hag.agrees hag.calm hi
        (fun token app e he => h.genuine token _ (hmem he) app e rfl)
        fun token o he => hag.spared token _ (hmem he) rfl
      have hnext := (w.does_carryOut i).moves.nextId_le hag.agrees hag.calm
      exact ⟨htells.orderly.append fun j hj => (hrest j hj).later htells hnext,
        fun id => (h.recorded id).tell hi hrest htells hnext hag.step.agrees.sound, hgenuine⟩
    · have hr := relays_of_delivery? (w := w) hi
      refine ⟨orderly_of_past fun j hj => ?_, fun id => (h.recorded id).relay hr, hgenuine⟩
      rw [step_cons, hr.schedule]
      exact (List.mem_append.mp hj).elim (hr.past _ (hback i List.mem_cons_self) j) (hrest j)

end Machine

/-- Clients listen and do not answer, nobody changes the pool behind the scheduler, and sessions
are told only what the scheduler tells. -/
structure Conduct.Attentive (rule : Conduct) : Prop where
  /-- Clients do not answer. -/
  listens : ∀ {c}, ¬ rule.answers c
  /-- Nobody changes the pool behind the scheduler. -/
  spares : ∀ {c}, rule.asks c → c.surface ≠ .pool
  /-- Nobody else tells a session an event. -/
  genuine : ∀ {c}, rule.asks c → ∀ app e, c ≠ .tellSession app e

theorem Conduct.Attentive.sparesPool {rule : Conduct} (h : rule.Attentive) : rule.SparesPool :=
  ⟨h.spares, fun hc => absurd hc h.listens⟩

namespace Machine

variable {rule : Conduct} {policy : Policy} {localNodes : List String} {withholds : Bool}
  {limit : Nat} {m : Machine}

theorem Course.attended (hrule : rule.Attentive)
    (h : Course rule (World.fresh policy localNodes withholds limit) t m) : Attended t m := by
  induction h with
  | start =>
    have hnone (a : Monitor) (id : Nat) :
        account ⟨World.fresh policy localNodes withholds limit, []⟩ a id = [] := rfl
    exact ⟨orderly_of_mute Item.mute_nil,
      fun id => .unheard (fun _ hx => by cases hx) rfl fun a => hnone a id,
      fun _ _ hj => by cases hj⟩
  | ask token _ hc ih =>
    refine ⟨orderly_of_mute (by simp [Item.delivery?]), fun id => ?_, fun token c hj => ?_⟩
    · cases ih.recorded id with
      | unheard never gone silent => exact .unheard never gone silent
      | known life accepted only old entry told =>
        exact .known life accepted only old entry told
    · cases List.mem_singleton.mp hj
      exact hrule.genuine hc
  | item hcourse ih => exact ih.step (hcourse.inAgreement hrule.sparesPool)
  | @answer t w p rest given _ hg ih =>
    obtain rfl : given = [] :=
      List.eq_nil_iff_forall_not_mem.mpr fun g hmem => hrule.listens (hg g hmem)
    obtain ⟨front, back, hl, hfront, hback⟩ := ih.orderly
    refine ⟨?_, fun id => ?_, fun token c hj => ih.genuine token c (List.mem_cons_of_mem _ hj)⟩
    · cases front with
      | cons j front =>
        obtain ⟨rfl, rfl⟩ := List.cons.inj hl
        exact ⟨front, back, rfl, fun j hj => hfront j (List.mem_cons_of_mem _ hj), hback⟩
      | nil =>
        obtain rfl : .prompt p :: rest = back := hl
        exact orderly_of_past fun j hj => hback j (List.mem_cons_of_mem _ hj)
    · cases ih.recorded id with
      | unheard never gone silent => exact .unheard never gone silent
      | known life accepted only old entry told =>
        exact .known life accepted only old entry told

/-- In any run in which clients only listen, whoever hears of an action hears a part of its life,
in order and from the beginning: how it was accepted, became ready, was perhaps found to fit
nowhere and was bound, and then its end, completed with its values or failed or cancelled.  When
no call is under way, it has heard all of it.  Nobody else hears of the action, and of an action
that was never accepted nobody hears. -/
theorem Course.heard_lifecycle (hrule : rule.Attentive)
    (h : Course rule (World.fresh policy localNodes withholds limit) t m) :
    (∀ id, (∀ x ∈ t, ∀ k, ¬ x.Accepts id k) → ∀ a, m.world.heard a id = []) ∧
      ∀ x ∈ t, ∀ id k, x.Accepts id k → ∃ l, Life t m.world.schedule id l ∧
        (∀ a ∈ k.hearers, m.world.heard a id <+: l ∧ Regular (m.world.heard a id) ∧
          (m.agenda = [] → m.world.heard a id = l)) ∧
        ∀ a ∉ k.hearers, m.world.heard a id = [] := by
  have hrec := (h.attended hrule).recorded
  refine ⟨fun id hnever a => ?_, fun x hx id k hk => ?_⟩
  · cases hrec id with
    | unheard _ _ silent => exact (List.append_eq_nil_iff.mp (silent a)).1
    | known _ accepted _ _ _ _ =>
      obtain ⟨x, hx, hk⟩ := accepted
      exact absurd hk (hnever x hx _)
  · cases hrec id with
    | unheard never _ _ => exact absurd hk (never x hx k)
    | @known k' l life _ only _ _ told =>
      obtain rfl := only x hx k hk
      refine ⟨l, life, fun a ha => ?_, fun a ha => ?_⟩
      · have hall : m.world.heard a id ++ Item.dues a id m.agenda = l := by
          have htold := told a
          rw [if_pos ha] at htold
          exact htold
        have hpre : m.world.heard a id <+: l := ⟨_, hall⟩
        refine ⟨hpre, life.regular.mono hpre, fun hdone => ?_⟩
        rw [hdone, Item.dues_nil, List.append_nil] at hall
        exact hall
      · have htold := told a
        rw [if_neg ha] at htold
        exact (List.append_eq_nil_iff.mp htold).1

/-! ### An action that finds no worker, then one, and completes with a value -/

/-- A task is submitted before there is any worker. -/
def proposing : Machine :=
  asked (.fresh .fifo [] false 8) 0 (.submit (.single (.cpus 1) "h") (.client 7 "c"))

/-- A worker is registered. -/
def recruiting : Machine :=
  asked (proposing.advance 11).world 1 (.addWorker (.permanent "n") (.cpus 1) default)

/-- The task is done. -/
def completing : Machine :=
  asked (recruiting.advance 7).world 2 (.complete 1 [⟨"x", "t", .persistent "p"⟩])

/-- The moments until all calls have returned. -/
def completingMoments : List Moment :=
  moments 11 completing ++ (moments 7 recruiting ++ (moments 11 proposing ++ []))

theorem course_completing :
    Course (.quiet fun c => c.surface = .scheduler) (.fresh .fifo [] false 8) completingMoments
      ⟨(completing.advance 11).world, []⟩ :=
  ((Course.start.call 0 11 (show _ = _ from rfl) (by decide +kernel)).call 1 7
    (show _ = _ from rfl) (by decide +kernel)).call 2 11 (show _ = _ from rfl) (by decide +kernel)

theorem attentive_scheduler :
    (Conduct.quiet fun c => c.surface = .scheduler).Attentive where
  listens := id
  spares {c} hc hp := by
    have hs : c.surface = .scheduler := hc
    rw [hp] at hs
    cases hs
  genuine {c} hc app e he := by
    have hs : c.surface = .scheduler := hc
    rw [he] at hs
    cases hs

/-- Its client hears the whole life, which is that of a completed action. -/
theorem heard_lifecycle_completing :
    ∃ x ∈ completingMoments, x.Accepts 1 (.client 7 "c") ∧
      (completing.advance 11).world.heard (.client 7 "c") 1 =
        [.created 1, .ready 1, .noEligibleResource 1, .assigned 1 (.permanent "n") 0,
          .valueProduced 1 ⟨"x", "t", .persistent "p"⟩, .completed 1] ∧
      Life completingMoments (completing.advance 11).world.schedule 1
        ((completing.advance 11).world.heard (.client 7 "c") 1) := by
  have hany : completingMoments.any (fun x => x.world.schedule.nextId = 1 ∧
      x.deed.accepted? = some (.client 7 "c")) = true := by decide +kernel
  obtain ⟨x, hx, hk⟩ := List.any_eq_true.mp hany
  have hboth := of_decide_eq_true hk
  have haccepts : x.Accepts 1 (.client 7 "c") := ⟨hboth.1, hboth.2⟩
  obtain ⟨l, hlife, hhears, -⟩ :=
    (Course.heard_lifecycle attentive_scheduler course_completing).2 x hx 1 _ haccepts
  obtain ⟨-, -, hall⟩ := hhears (.client 7 "c") List.mem_cons_self
  refine ⟨x, hx, haccepts, by decide +kernel, ?_⟩
  rw [hall rfl]
  exact hlife

end Machine

end TaskGrid
