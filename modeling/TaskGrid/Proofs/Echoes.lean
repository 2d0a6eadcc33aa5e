import TaskGrid.Proofs.LastWord

/-!
# Those who hear together

A session passes on what it is told at once: the item that tells it leads to the item that tells
its own monitor, and that comes first on the agenda.  So whatever clients answer, and in whatever
order events reach a session because of that, its monitor hears them in the same order.

What is on the agenda beyond its first item is told to the monitor of the action itself
(`Item.ToldTo`); therefore, where an item is about to tell something new, whoever hears of the
action has heard the same so far.

* `Item.toldTo_of_dues`: if all hearers are to hear the same, then it is told to the first of them.
* `Machine.Echoed`: what all hearers of an action hear alike is its life, in some order.
* `Machine.Course.heard_alike`: so it is in every run.
-/

namespace TaskGrid

namespace Monitor

variable {a k m : Monitor}

theorem mem_hearers_self (m : Monitor) : m ∈ m.hearers := List.mem_cons_self

theorem mem_hearers_trans (ha : a ∈ k.hearers) (hk : k ∈ m.hearers) : a ∈ m.hearers := by
  induction m with
  | session app inner ih =>
    rcases List.mem_cons.mp hk with rfl | hk
    · exact ha
    · exact List.mem_cons_of_mem _ (ih hk)
  | _ =>
    rw [List.mem_singleton.mp hk] at ha
    exact ha

/-- Two monitors that pass on to each other are the same. -/
theorem eq_of_mem_hearers (ha : a ∈ k.hearers) (hk : k ∈ a.hearers) : a = k := by
  rcases List.mem_cons.mp ha with rfl | ha
  · rfl
  · rcases List.mem_cons.mp hk with rfl | hk
    · rfl
    · exact absurd (sizeOf_lt_of_mem_relays ha) (Nat.lt_asymm (sizeOf_lt_of_mem_relays hk))

end Monitor

/-! ## To whom an agenda tells of an action -/

namespace Item

variable {a k : Monitor} {id : Nat} {l r : List Item}

/-- What the items of a list tell of an action, they tell one monitor. -/
def ToldTo (k : Monitor) (id : Nat) (l : List Item) : Prop :=
  ∀ j ∈ l, ∀ m e, j.delivery? = some (m, e) → e.action = id → m = k

/-- The notices of a list are routine ones. -/
def Routine (l : List Item) : Prop := ∀ n, .note n ∈ l → n.isRoutine = true

theorem toldTo_append : ToldTo k id (l ++ r) ↔ ToldTo k id l ∧ ToldTo k id r :=
  List.forall_mem_append

theorem ToldTo.mono (h : ToldTo k id l) (hr : ∀ j ∈ r, j ∈ l) : ToldTo k id r :=
  fun j hj => h j (hr j hj)

theorem toldTo_of_mute (h : Mute l) : ToldTo k id l := fun j hj m e he => by
  rw [h j hj] at he
  cases he

/-- An event that is to be told, and not by a notice, is told by an item for it alone. -/
theorem eq_deliver {j : Item} (hr : ∀ n, j = .note n → n.isRoutine = true) {m : Monitor} {e : Event}
    (hj : j.delivery? = some (m, e)) : j = .deliver m e := by
  cases j with
  | deliver m' e' =>
    cases hj
    rfl
  | note n =>
    have hn := hr n rfl
    cases n with
    | delivered => cases hn
    | _ => cases hj
  | _ => cases hj

theorem due_deliver (a m : Monitor) (id : Nat) (e : Event) :
    due a id (.deliver m e) = if a ∈ m.hearers ∧ e.action = id then [e] else [] := rfl

/-- Whoever a monitor passes on to hears at least as much. -/
theorem length_dues_le (ha : a ∈ k.hearers) (hl : Routine l) :
    (dues k id l).length ≤ (dues a id l).length := by
  induction l with
  | nil => exact Nat.le_refl _
  | cons j l ih =>
    have hrest := ih fun n hn => hl n (List.mem_cons_of_mem j hn)
    have hfirst : (due k id j).length ≤ (due a id j).length := by
      cases hd : j.delivery? with
      | none =>
        rw [due_eq_nil fun m e he => by rw [hd] at he; cases he]
        exact Nat.zero_le _
      | some x =>
        obtain ⟨m, e⟩ := x
        obtain rfl := eq_deliver (fun n hn => hl n (hn ▸ List.mem_cons_self)) hd
        rw [due_deliver, due_deliver]
        split
        · next hk =>
          exact Nat.le_of_eq (congrArg List.length
            (if_pos ⟨Monitor.mem_hearers_trans ha hk.1, hk.2⟩).symm)
        · exact Nat.zero_le _
    rw [dues_cons, dues_cons, List.length_append, List.length_append]
    exact Nat.add_le_add hfirst hrest

/-- If all hearers of a monitor are to hear the same, and nobody else anything, then it is the
monitor that is told. -/
theorem toldTo_of_dues {es : List Event} (hl : Routine l)
    (h : ∀ a, dues a id l = if a ∈ k.hearers then es else []) : ToldTo k id l := by
  intro j hj m e hd hid
  have hmem : e ∈ dues m id l := hid ▸ mem_dues_of_mem hj hd
  have hm : m ∈ k.hearers := by
    by_contra hno
    rw [h, if_neg hno] at hmem
    cases hmem
  by_contra hne
  obtain rfl := eq_deliver (fun n hn => hl n (hn ▸ hj)) hd
  -- the monitor does not hear this one, and of the others no more than its hearer
  have hk : k ∉ m.hearers := fun hk => hne (Monitor.eq_of_mem_hearers hm hk)
  obtain ⟨l₁, l₂, rfl⟩ := List.append_of_mem hj
  have hsame : dues k id (l₁ ++ .deliver m e :: l₂) = dues m id (l₁ ++ .deliver m e :: l₂) := by
    rw [h, h, if_pos hm, if_pos k.mem_hearers_self]
  have h₁ : (dues k id l₁).length ≤ (dues m id l₁).length :=
    length_dues_le hm fun n hn => hl n (List.mem_append_left _ hn)
  have h₂ : (dues k id l₂).length ≤ (dues m id l₂).length :=
    length_dues_le hm fun n hn => hl n (List.mem_append_right _ (List.mem_cons_of_mem _ hn))
  have hlength := congrArg List.length hsame
  rw [dues_append, dues_append, dues_cons, dues_cons, due_deliver, due_deliver,
    if_neg fun hc => hk hc.1, if_pos ⟨m.mem_hearers_self, hid⟩] at hlength
  simp only [List.length_append, List.length_nil, List.length_singleton] at hlength
  omega

/-- What is told to a monitor reaches its hearers alike. -/
theorem ToldTo.dues (h : ToldTo k id l) (hl : Routine l) (a : Monitor) :
    dues a id l = if a ∈ k.hearers then Item.dues k id l else [] := by
  induction l with
  | nil => exact (ite_self _).symm
  | cons j l ih =>
    have hrest := ih (h.mono fun _ => List.mem_cons_of_mem j)
      fun n hn => hl n (List.mem_cons_of_mem j hn)
    have hfirst : due a id j = if a ∈ k.hearers then due k id j else [] := by
      cases hd : j.delivery? with
      | none =>
        have hnone (b : Monitor) : due b id j = [] :=
          due_eq_nil fun m e he => by rw [hd] at he; cases he
        rw [hnone, hnone, ite_self]
      | some x =>
        obtain ⟨m, e⟩ := x
        obtain rfl := eq_deliver (fun n hn => hl n (hn ▸ List.mem_cons_self)) hd
        rw [due_deliver, due_deliver]
        by_cases hid : e.action = id
        · obtain rfl := h _ List.mem_cons_self m e rfl hid
          simp [hid, Monitor.hearers]
        · simp [hid]
    rw [dues_cons, dues_cons, hfirst, hrest]
    split <;> rfl

end Item

/-- Where something is told at once, nothing but what follows from it comes after it. -/
theorem World.mute_tail_of_delivery? {w : World} {i : Item} (h : i.delivery? ≠ none) :
    Item.Mute (w.carryOut i).2.tail := by
  cases i with
  | deliver m e =>
    dsimp only [carryOut]
    unfold deliver
    cases m with
    | session app inner =>
      dsimp only [List.tail_cons]
      split <;> simp [Item.delivery?]
    | mailbox => dsimp only; split <;> simp
    | _ => simp
  | note n => exact Item.mute_nil
  | _ => exact absurd rfl h

namespace Machine

open Item (ToldTo Routine)

variable {t : List Moment} {m m' : Machine} {w : World} {i : Item} {rest : List Item} {x : Moment}
  {id : Nat} {k : Monitor}

/-! ## What is heard alike -/

/-- All that hear of an action hear the same, and what they heard and are still to hear is its
life, in some order. -/
inductive Echoed (t : List Moment) (m : Machine) (id : Nat) : Prop where
  /-- It was never accepted. -/
  | unheard (never : ∀ x ∈ t, ∀ k, ¬ x.Accepts id k)
    (gone : m.world.schedule.actions.get? id = none) (silent : ∀ a, m.account a id = [])
  /-- It was accepted with a monitor. -/
  | known {k : Monitor} {l heard : List Event} (life : Life t m.world.schedule id l)
    (accepted : ∃ x ∈ t, x.Accepts id k) (only : ∀ x ∈ t, ∀ k', x.Accepts id k' → k' = k)
    (old : id < m.world.schedule.nextId)
    (entry : ∀ x, m.world.schedule.actions.get? id = some x → x.monitor = k ∧ x.Follows id l)
    (told : ∀ a, m.account a id = if a ∈ k.hearers then heard else []) (perm : heard.Perm l)
    (whole : ToldTo k id m.agenda.tail)

/-- Nothing happens to an action. -/
theorem Echoed.later (h : Echoed t m id)
    (hs : m'.world.schedule.actions.get? id = m.world.schedule.actions.get? id)
    (hnext : m.world.schedule.nextId ≤ m'.world.schedule.nextId)
    (never : ∀ k, ¬ x.Accepts id k) (told : ∀ a, m'.account a id = m.account a id)
    (whole : ∀ k, ToldTo k id m.agenda.tail → ToldTo k id m'.agenda.tail) :
    Echoed (x :: t) m' id := by
  cases h with
  | unheard never' gone silent =>
    exact .unheard (List.forall_mem_cons.mpr ⟨never, never'⟩) (hs.trans gone)
      fun a => (told a).trans (silent a)
  | known life accepted only old entry told' perm whole' =>
    exact .known (life.later hs) (Moment.accepted_later accepted)
      (List.forall_mem_cons.mpr ⟨fun k' ha => absurd ha (never k'), only⟩)
      (Nat.lt_of_lt_of_le old hnext) (fun z hz => entry z (hs ▸ hz))
      (fun a => (told a).trans (told' a)) perm (whole _ whole')

theorem toldTo_tail_append {items : List Item} (hitems : ToldTo k id items)
    (hrest : ToldTo k id rest) : ToldTo k id (items ++ rest).tail :=
  (Item.toldTo_append.mpr ⟨hitems, hrest⟩).mono fun _ => List.mem_of_mem_tail

/-- An item that only tells keeps all accounts. -/
theorem Echoed.relay (h : Echoed t ⟨w, i :: rest⟩ id) (hi : i.delivery? ≠ none) :
    Echoed (⟨w, i⟩ :: t) (step ⟨w, i :: rest⟩) id := by
  have hr : Relays w i := relays_of_delivery? hi
  rw [step_cons]
  refine h.later (by rw [hr.schedule]) (Nat.le_of_eq (by rw [hr.schedule])) (hr.never id)
    (fun a => ?_) fun k hrest => ?_
  · unfold account
    rw [Item.dues_append, ← List.append_assoc, hr.account, Item.dues_cons, List.append_assoc]
  · have hrest : ToldTo k id rest := hrest
    have hmute := World.mute_tail_of_delivery? (w := w) hi
    generalize (w.carryOut i).2 = items at hmute
    cases items with
    | nil => exact hrest.mono fun _ => List.mem_of_mem_tail
    | cons j items => exact Item.toldTo_append.mpr ⟨Item.toldTo_of_mute hmute, hrest⟩

section Telling

variable {es : List (Monitor × Event)} {l heard new : List Event}

/-- What is new of an action is told to its monitor. -/
theorem toldTo_of_tells (htells : Tells ⟨w, i⟩ (w.carryOut i) es)
    (hroutine : Routine (w.carryOut i).2) (hes : about id es = new.map (Prod.mk k)) :
    ToldTo k id (w.carryOut i).2 :=
  Item.toldTo_of_dues hroutine fun a => by rw [htells.dues, hes, toHear_map]

/-- Of an action of which nobody is to hear nothing is told. -/
theorem toldTo_of_silent (hi : i.delivery? = none)
    (silent : ∀ a, account ⟨w, i :: rest⟩ a id = []) : ToldTo k id rest := by
  intro j hj m e hd hid
  have hmem : e ∈ account ⟨w, i :: rest⟩ m id := by
    rw [account_of_silent hi, ← hid]
    exact List.mem_append_right _ (Item.mem_dues_of_mem hj hd)
  rw [silent] at hmem
  cases hmem

/-- All that have heard the same of an action hear the same, and what is new comes between what was
heard and what is still to be told. -/
theorem exists_heard_of_tells (hi : i.delivery? = none)
    (htells : Tells ⟨w, i⟩ (w.carryOut i) es) (hroutine : Routine rest)
    (htold : ∀ a, account ⟨w, i :: rest⟩ a id = if a ∈ k.hearers then heard else [])
    (hperm : heard.Perm l) (hwhole : ToldTo k id rest)
    (hes : about id es = new.map (Prod.mk k)) : ∃ heard', heard'.Perm (l ++ new) ∧
      ∀ a, account ⟨(w.carryOut i).1, (w.carryOut i).2 ++ rest⟩ a id =
        if a ∈ k.hearers then heard' else [] := by
  have hall := htold k
  rw [account_of_silent hi, if_pos k.mem_hearers_self] at hall
  refine ⟨w.heard k id ++ (new ++ Item.dues k id rest), ?_, fun a => ?_⟩
  · refine (List.perm_append_comm.append_left _).trans ?_
    rw [← List.append_assoc, hall]
    exact hperm.append_right new
  · have ha := htold a
    rw [account_of_silent hi, hwhole.dues hroutine] at ha
    rw [account_of_tells hi htells, hes, toHear_map, hwhole.dues hroutine]
    split
    · next hmem =>
      rw [if_pos hmem, if_pos hmem, ← hall, List.append_left_inj] at ha
      rw [ha]
    · next hmem =>
      rw [if_neg hmem, if_neg hmem, List.append_nil] at ha
      rw [ha]
      rfl

end Telling

/-- What becomes of an action is told alike to all that hear of it. -/
theorem Echoed.tell {es : List (Monitor × Event)} (h : Echoed t ⟨w, i :: rest⟩ id)
    (hi : i.delivery? = none) (htells : Tells ⟨w, i⟩ (w.carryOut i) es)
    (hroutine : Routine ((w.carryOut i).2 ++ rest))
    (hnext : w.schedule.nextId ≤ (w.carryOut i).1.schedule.nextId)
    (hsound : (w.carryOut i).1.schedule.Sound) :
    Echoed (⟨w, i⟩ :: t) (step ⟨w, i :: rest⟩) id := by
  rw [step_cons]
  have hrest : Routine rest := fun n hn => hroutine n (List.mem_append_right _ hn)
  have hitems {k : Monitor} {new : List Event} (hes : about id es = new.map (Prod.mk k)) :
      ToldTo k id (w.carryOut i).2 :=
    toldTo_of_tells htells (fun n hn => hroutine n (List.mem_append_left _ hn)) hes
  cases htells.fate id with
  | on leads hnot =>
    cases leads with
    | aside before after told =>
      refine h.later (after.trans before.symm) hnext hnot (fun a => ?_) fun k hk => ?_
      · rw [account_of_tells hi htells, told, toHear_nil, List.nil_append, account_of_silent hi]
      · exact toldTo_tail_append (hitems (show about id es = [].map (Prod.mk k) from told)) hk
    | @on x y before after monitor goes =>
      cases h with
      | unheard _ gone _ => rw [before] at gone; cases gone
      | known life accepted only old entry told perm whole =>
        obtain ⟨rfl, hfollows⟩ := entry x before
        obtain ⟨new, hes, hy⟩ := goes _ hfollows
        obtain ⟨heard', hperm, htold⟩ :=
          exists_heard_of_tells hi htells hrest told perm whole hes
        refine .known (.going after hy.opening) (Moment.accepted_later accepted)
          (List.forall_mem_cons.mpr ⟨fun k' ha => absurd ha (hnot k'), only⟩)
          (Nat.lt_of_lt_of_le old hnext) (fun z hz => ?_) htold hperm
          (toldTo_tail_append (hitems hes) whole)
        rw [after] at hz
        obtain rfl := Option.some_inj.mp hz
        exact ⟨monitor, hy⟩
  | @begun mon accepts begins =>
    cases h with
    | known _ _ _ old _ _ _ _ => exact absurd accepts.1 (Nat.ne_of_gt old)
    | unheard never gone silent =>
      obtain ⟨y, new, hy, rfl, hes, hfollows⟩ := begins
      have hwhole : ToldTo y.monitor id rest := toldTo_of_silent hi silent
      obtain ⟨heard', hperm, htold⟩ := exists_heard_of_tells hi htells hrest (l := [])
        (fun a => (silent a).trans (ite_self _).symm) (.refl []) hwhole hes
      refine .known (.going hy hfollows.opening) ⟨_, List.mem_cons_self, accepts⟩
        (List.forall_mem_cons.mpr ⟨fun k' ha => Option.some_inj.mp (ha.2.symm.trans accepts.2),
          fun z hz k' ha => absurd ha (never z hz k')⟩)
        (hsound.old (Schedule.standing?_eq_some_iff.mpr ⟨y, hy, rfl⟩)) (fun z hz => ?_) htold hperm
        (toldTo_tail_append (hitems hes) hwhole)
      rw [hy] at hz
      obtain rfl := Option.some_inj.mp hz
      exact ⟨rfl, hfollows⟩
  | @ended ending how ends =>
    obtain ⟨x, hx, hgone, hsuits, hes⟩ := ends
    cases h with
    | unheard _ gone _ => rw [hx] at gone; cases gone
    | known life accepted only old entry told perm whole =>
      obtain ⟨rfl, hfollows⟩ := entry x hx
      obtain ⟨heard', hperm, htold⟩ :=
        exists_heard_of_tells hi htells hrest told perm whole (hes _ hfollows)
      exact .known (.ended hgone List.mem_cons_self how hx hsuits hfollows.opening)
        (Moment.accepted_later accepted)
        (List.forall_mem_cons.mpr ⟨fun k' ha => absurd ha.1 (Nat.ne_of_gt old), only⟩)
        (Nat.lt_of_lt_of_le old hnext) (fun z hz => by rw [hgone] at hz; cases hz) htold hperm
        (toldTo_tail_append (hitems (hes _ hfollows)) whole)

/-! ## Every run -/

variable {rule : Conduct} {policy : Policy} {localNodes : List String} {withholds : Bool}
  {limit : Nat}

/-- In every run whose clients may answer, whoever hears of an action hears the same. -/
theorem Course.echoed (hrule : rule.Honest)
    (h : Course rule (World.fresh policy localNodes withholds limit) t m) (id : Nat) :
    Echoed t m id := by
  induction h with
  | start => exact .unheard (List.forall_mem_nil _) rfl fun a => rfl
  | ask token _ _ ih =>
    cases ih with
    | unheard never gone silent => exact .unheard never gone silent
    | known life accepted only old entry told perm whole =>
      exact .known life accepted only old entry told perm whole
  | @item t w i rest hc ih =>
    have hag := hc.inAgreement hrule.spares
    by_cases hi : i.delivery? = none
    · obtain ⟨es, htells⟩ := tells_carryOut hag.agrees hag.calm hi (hc.not_tellSession hrule)
        hag.not_pool
      exact ih.tell hi htells (fun n hn => hc.item.isRoutine hn)
        ((w.does_carryOut i).moves.nextId_le hag.agrees hag.calm) hag.step.agrees.sound
    · exact ih.relay hi
  | @answer t w p rest given _ _ ih =>
    have hmute : Item.Mute (given.map fun g => Item.obey g.1 g.2) := Item.mute_map _ fun _ => rfl
    have hsame (a : Monitor) :
        account ⟨w, (given.map fun g => Item.obey g.1 g.2) ++ rest⟩ a id =
          account ⟨w, .prompt p :: rest⟩ a id := by
      unfold account
      rw [Item.dues_append, Item.dues_of_mute hmute]
      rfl
    cases ih with
    | unheard never gone silent => exact .unheard never gone fun a => (hsame a).trans (silent a)
    | known life accepted only old entry told perm whole =>
      exact .known life accepted only old entry (fun a => (hsame a).trans (told a)) perm
        (toldTo_tail_append (Item.toldTo_of_mute hmute) whole)

/-- In any run, whatever clients answer, all that hear of an action have heard the same between
calls: everything that there is to tell about it, each event once, in some order.  Nobody else
hears of it. -/
theorem Course.heard_alike (hrule : rule.Honest)
    (h : Course rule (World.fresh policy localNodes withholds limit) t ⟨w, []⟩) (hx : x ∈ t)
    (hk : x.Accepts id k) : ∃ l heard, Life t w.schedule id l ∧ heard.Perm l ∧
      ∀ a, w.heard a id = if a ∈ k.hearers then heard else [] := by
  cases h.echoed hrule id with
  | unheard never _ _ => exact absurd hk (never x hx k)
  | @known k' l heard life _ only _ _ told perm _ =>
    obtain rfl := only x hx k hk
    refine ⟨l, heard, life, perm, fun a => ?_⟩
    have ha := told a
    rw [account, Item.dues_nil, List.append_nil] at ha
    exact ha

end Machine

end TaskGrid
