import TaskGrid.Proofs.Turns

/-!
# The table and the pool agree

A binding is kept twice: the table says which worker an action is bound to, and the worker keeps
what is reserved for the action.  Whatever happens through the scheduler, the two say the same.

## The invariant

In the middle of a call the two may differ, since a departure reports first and then lets actions
fail.  What is still owed is on the agenda, and with it the invariant `Agrees` holds at every step:
every reservation is that of an action bound there, every binding has its reservation or waits to
fail, and a worker that is about to leave as drained holds nothing.

Most items change neither bindings nor reservations (`Schedule.Retains`, `Pool.Retains`); the
others are passes, ends of actions, and losses, each with a lemma of its own.

* `Agrees`: the invariant.
* `Agrees.turn`, `Machine.InAgreement.step`: the step lemmas.
* `Machine.Course.inAgreement`: the invariant along every course.
-/

namespace TaskGrid

open Item (Plain)

/-- Table and pool agree, up to what is owed by the agenda. -/
structure Agrees (s : Schedule) (p : Pool) (agenda : List Item) : Prop where
  /-- The table is in order. -/
  sound : s.Sound
  /-- What is reserved is what an action needs that is bound there. -/
  held : ∀ {key v id need}, p.worker? key = some v → v.reservations.get? id = some need →
    ∃ x, s.standing? id = some x ∧ x.binding = some key ∧
      ∃ i ∈ x.action.task.implementations, i.requirement = need
  /-- A bound action has its reservation, or its worker is lost and it will fail. -/
  bound : ∀ {id x key}, s.standing? id = some x → x.binding = some key →
    (∃ v need, p.worker? key = some v ∧ v.reservations.get? id = some need) ∨
      ∃ ids, .failBound key ids ∈ agenda ∧ id ∈ ids
  /-- Nothing is reserved any more for an action that will fail. -/
  lost : ∀ {key ids id}, .failBound key ids ∈ agenda → id ∈ ids → id < s.nextId ∧
    (∀ {k v}, p.worker? k = some v → v.reservations.get? id = none) ∧
    ∀ {x}, s.standing? id = some x → x.binding = some key
  /-- A worker that will leave as drained is drained. -/
  drained : ∀ {key seq}, .retire key seq ∈ agenda → seq < p.nextSeq ∧
    ∀ {v}, p.worker? key = some v → v.seq = seq → v.isDrained = true
  /-- Workers are numbered in the order of their registrations. -/
  numbered : ∀ {key v}, p.worker? key = some v → v.seq < p.nextSeq

theorem agrees_empty (limit : Nat) {p : Pool} (h : p.workers = .empty) :
    Agrees { historyLimit := limit } p [] := by
  have hnone (key : WorkerKey) : p.worker? key = none := by
    rw [Pool.worker?, h]
    rfl
  refine ⟨Schedule.sound_empty limit, fun {key v id need} hv => ?_, fun {id x key} hx => ?_,
    fun hj => ?_, fun hj => ?_, fun {key v} hv => ?_⟩
  · rw [hnone] at hv
    cases hv
  · cases hx
  · cases hj
  · cases hj
  · rw [hnone] at hv
    cases hv

/-! ## Changes of neither bindings nor reservations -/

/-- From one table to another, live actions stay, and stay bound where they are; new ones are
bound nowhere. -/
structure Schedule.Retains (s t : Schedule) : Prop where
  /-- What was live is live and bound as it was. -/
  kept : ∀ {id x}, s.standing? id = some x →
    ∃ y, t.standing? id = some y ∧ y.action = x.action ∧ y.binding = x.binding
  /-- What is live was live and bound as it is, or it is new and not bound. -/
  back : ∀ {id y}, t.standing? id = some y →
    (∃ x, s.standing? id = some x ∧ x.binding = y.binding) ∨ s.nextId ≤ id ∧ y.binding = none
  /-- Identifiers are not handed out again. -/
  nextId : s.nextId ≤ t.nextId

/-- From one pool to another, reservations stay; what is left of a worker is number, reservations
and that it accepts nothing, and a new worker holds nothing. -/
structure Pool.Retains (p q : Pool) : Prop where
  /-- What was reserved is reserved. -/
  kept : ∀ {key v id need}, p.worker? key = some v → v.reservations.get? id = some need →
    ∃ u, q.worker? key = some u ∧ u.reservations.get? id = some need
  /-- A worker was there with the same reservations, or it is new and holds nothing. -/
  back : ∀ {key u}, q.worker? key = some u →
    (∃ v, p.worker? key = some v ∧ u.seq = v.seq ∧ u.reservations = v.reservations ∧
      (v.removing = true → u.removing = true)) ∨
    p.nextSeq ≤ u.seq ∧ u.seq < q.nextSeq ∧ u.reservations = .empty
  /-- Numbers are not handed out again. -/
  nextSeq : p.nextSeq ≤ q.nextSeq

theorem Schedule.Retains.refl (s : Schedule) : s.Retains s :=
  ⟨fun h => ⟨_, h, rfl, rfl⟩, fun h => .inl ⟨_, h, rfl⟩, Nat.le_refl _⟩

theorem Pool.Retains.refl (p : Pool) : p.Retains p :=
  ⟨fun hv hn => ⟨_, hv, hn⟩, fun hu => .inl ⟨_, hu, rfl, rfl, id⟩, Nat.le_refl _⟩

theorem Schedule.Promotes.retains {s t : Schedule} (h : s.Promotes t) : s.Retains t where
  kept {id x} hx := by
    rcases h.2 id with ht | ⟨y, hy, -, ht⟩
    · exact ⟨x, ht ▸ hx, rfl, rfl⟩
    · rw [hx] at hy
      obtain rfl := Option.some_inj.mp hy
      exact ⟨_, ht, rfl, rfl⟩
  back {id y} hy := by
    obtain ⟨x, hx, -, hb, -⟩ := h.exists_of_standing? hy
    exact .inl ⟨x, hx, hb⟩
  nextId := Nat.le_of_eq h.1.symm

theorem Schedule.Restates.retains {s t : Schedule} (h : s.Restates t) : s.Retains t where
  kept {id x} hx := ⟨x, (h.standing? id).trans hx, rfl, rfl⟩
  back {id y} hy := .inl ⟨y, (h.standing? id).symm.trans hy, rfl⟩
  nextId := Nat.le_of_eq h.nextId.symm

theorem Schedule.retains_accept {s : Schedule} (hs : s.Sound) (c : Catalog) (task : Submission)
    (monitor : Monitor) : s.Retains (s.accept c task monitor).2.1 where
  kept {id x} hx := by
    have hne : id ≠ s.nextId := fun hid => absurd (hs.old hx) (by omega)
    exact ⟨x, by rw [standing?_accept, if_neg hne, hx], rfl, rfl⟩
  back {id y} hy := by
    rw [standing?_accept] at hy
    split at hy
    · next hid => exact .inr ⟨by omega, by rw [← Option.some_inj.mp hy]⟩
    · exact .inl ⟨y, hy, rfl⟩
  nextId := by
    rw [nextId_accept]
    omega

theorem Schedule.retains_markRunning {s t : Schedule} {id : Nat} (h : s.markRunning? id = some t) :
    s.Retains t := by
  obtain ⟨hn, -, x, hx, -, ht⟩ := markRunning?_eq_some h
  refine ⟨fun {j y} hy => ?_, fun {j y} hy => ?_, Nat.le_of_eq hn.symm⟩
  · by_cases hj : j = id
    · subst hj
      rw [hx] at hy
      obtain rfl := Option.some_inj.mp hy
      exact ⟨{ x with state := .running }, by rw [ht, if_pos rfl], rfl, rfl⟩
    · exact ⟨y, by rw [ht, if_neg hj, hy], rfl, rfl⟩
  · rw [ht] at hy
    split at hy
    · next hj => exact .inl ⟨x, hj ▸ hx, by rw [← Option.some_inj.mp hy]⟩
    · exact .inl ⟨y, hy, rfl⟩

/-- A worker that is replaced by one with the same number and reservations. -/
theorem Pool.retains_of_insert {p q : Pool} {key : WorkerKey} {v u : Worker}
    (hv : p.worker? key = some v) (hq : q.workers = p.workers.insert key u)
    (hn : q.nextSeq = p.nextSeq) (hseq : u.seq = v.seq) (hres : u.reservations = v.reservations)
    (hrem : v.removing = true → u.removing = true) : p.Retains q where
  kept {k y id need} hy hneed := by
    by_cases hk : k = key
    · subst hk
      rw [hv] at hy
      obtain rfl := Option.some_inj.mp hy
      exact ⟨u, by rw [worker?_of_insert hq, if_pos rfl], by rw [hres, hneed]⟩
    · exact ⟨y, by rw [worker?_of_insert hq, if_neg hk, hy], hneed⟩
  back {k y} hy := by
    rw [worker?_of_insert hq] at hy
    split at hy
    · next hk =>
      rw [← Option.some_inj.mp hy]
      exact .inl ⟨v, hk ▸ hv, hseq, hres, hrem⟩
    · exact .inl ⟨y, hy, rfl, rfl, id⟩
  nextSeq := Nat.le_of_eq hn.symm

theorem Pool.retains_add (p : Pool) (key : WorkerKey) (offered : Capacity) (adaptor : Adaptor) :
    p.Retains (p.add key offered adaptor).2 := by
  have hw := workers_add p key offered adaptor
  rcases offeredWorker_cases p key offered adaptor with ⟨v, hv, ho, hn⟩ | ⟨hnone, ho, hn⟩
  · rw [ho] at hw
    exact retains_of_insert hv hw hn (Worker.seq_offer _ _ _) (Worker.reservations_offer _ _ _)
      fun hr => by rw [Worker.removing_offer, hr]
  · rw [ho] at hw
    refine ⟨fun {k y id need} hy hneed => ?_, fun {k y} hy => ?_, by omega⟩
    · have hk : k ≠ key := by
        intro hk
        rw [hk, hnone] at hy
        cases hy
      exact ⟨y, by rw [worker?_of_insert hw, if_neg hk, hy], hneed⟩
    · rw [worker?_of_insert hw] at hy
      split at hy
      · rw [← Option.some_inj.mp hy, Worker.seq_offer, Worker.reservations_offer]
        refine .inr ⟨Nat.le_refl _, ?_, rfl⟩
        rw [hn]
        exact Nat.lt_succ_self _
      · exact .inl ⟨y, hy, rfl, rfl, id⟩

theorem Pool.retains_reduce (p : Pool) (key : WorkerKey) (c : Capacity) :
    p.Retains (p.reduce key c).2 := by
  rcases reduce_cases p key c with h | ⟨v, free, total, hv, -, -, h⟩
  · rw [h]
    exact .refl p
  · rw [h]
    exact retains_of_insert hv rfl rfl rfl rfl id

/-- A worker without reservations can go. -/
theorem Pool.retains_of_erase {p q : Pool} {key : WorkerKey} {v : Worker}
    (hv : p.worker? key = some v) (hnone : ∀ id, v.reservations.get? id = none)
    (hq : q.workers = p.workers.erase key) (hn : q.nextSeq = p.nextSeq) : p.Retains q where
  kept {k y id need} hy hneed := by
    have hk : k ≠ key := by
      intro hk
      rw [hk, hv] at hy
      rw [← Option.some_inj.mp hy, hnone] at hneed
      cases hneed
    exact ⟨y, by rw [worker?_of_erase hq, if_neg hk, hy], hneed⟩
  back {k y} hy := by
    rw [worker?_of_erase hq] at hy
    split at hy
    · cases hy
    · exact .inl ⟨y, hy, rfl, rfl, id⟩
  nextSeq := Nat.le_of_eq hn.symm

theorem Worker.get?_of_drained {v : Worker} (h : v.isDrained = true) (id : Nat) :
    v.reservations.get? id = none := by
  rw [isDrained, Bool.and_eq_true] at h
  exact SortedMap.isEmpty_iff_get?.mp h.2 id

theorem Worker.not_drained_of_accepting {v : Worker} (h : v.removing = false) :
    v.isDrained = false := by
  rw [isDrained, h, Bool.false_and]

/-- What an action releases when it ends: nothing where nothing is reserved for it, and otherwise
what is. -/
theorem Schedule.releaseBinding_cases (p : Pool) (x : Entry) :
    ((releaseBinding p x {}).1 = p ∧ (releaseBinding p x {}).2.drained = [] ∧
        ∀ {key v}, x.binding = some key → p.worker? key = some v →
          v.reservations.get? x.action.id = none) ∨
      ∃ key v v', x.binding = some key ∧ p.worker? key = some v ∧
        v.release? x.action.id = some v' ∧
        (releaseBinding p x {}).1 = { p with workers := p.workers.insert key v' } ∧
        (releaseBinding p x {}).2.drained = if v'.isDrained then [(key, v'.seq)] else [] := by
  unfold releaseBinding
  cases hb : x.binding with
  | none => exact .inl ⟨rfl, rfl, fun hk => by cases hk⟩
  | some key =>
    dsimp only
    cases hr : p.release? key x.action.id with
    | none =>
      refine .inl ⟨rfl, rfl, fun {k v} hk hv => ?_⟩
      rw [← Option.some_inj.mp hk] at hv
      exact Pool.release?_eq_none_iff.mp hr v hv
    | some r =>
      obtain ⟨v, v', hv, hrel, rfl⟩ := Pool.release?_eq_some_iff.mp hr
      refine .inr ⟨key, v, v', rfl, hv, hrel, rfl, ?_⟩
      dsimp only
      split <;> rfl

namespace Agrees

variable {s t : Schedule} {p q : Pool} {a b : List Item}

/-- Nothing is reserved for a ready action. -/
theorem unheld (h : Agrees s p a) {id : Nat} (hid : id ∈ s.ready) {key : WorkerKey} {v : Worker}
    (hv : p.worker? key = some v) : v.reservations.get? id = none := by
  cases hn : v.reservations.get? id with
  | none => rfl
  | some need =>
    obtain ⟨x, hx, hb, -⟩ := h.held hv hn
    obtain ⟨y, hy, hr⟩ := h.sound.ready_iff.mp hid
    rw [hx] at hy
    rw [h.sound.binding_of_ready hx (Option.some_inj.mp hy ▸ hr)] at hb
    cases hb

/-- Only what is owed counts on the agenda. -/
theorem agenda (h : Agrees s p a) (hf : ∀ key ids, .failBound key ids ∈ b ↔ .failBound key ids ∈ a)
    (hr : ∀ key seq, .retire key seq ∈ b → .retire key seq ∈ a) : Agrees s p b where
  sound := h.sound
  held := h.held
  bound hx hb := by
    rcases h.bound hx hb with hres | ⟨ids, hids, hmem⟩
    · exact .inl hres
    · exact .inr ⟨ids, (hf _ _).mpr hids, hmem⟩
  lost hj := h.lost ((hf _ _).mp hj)
  drained hj := h.drained (hr _ _ hj)
  numbered := h.numbered

/-- Carrying out an item that is not owed, and that leads to nothing owed. -/
theorem tail {i : Item} {items rest : List Item} (h : Agrees s p (i :: rest))
    (hi : ∀ key ids, i ≠ .failBound key ids) (plain : Plain items) :
    Agrees s p (items ++ rest) := by
  refine h.agenda ?_ ?_
  · intro key ids
    rw [List.mem_append, List.mem_cons]
    constructor
    · rintro (hj | hj)
      · exact absurd (plain _ hj) Bool.false_ne_true
      · exact .inr hj
    · rintro (hj | hj)
      · exact absurd hj.symm (hi key ids)
      · exact .inr hj
  · intro key seq hj
    rcases List.mem_append.mp hj with hj | hj
    · exact absurd (plain _ hj) Bool.false_ne_true
    · exact List.mem_cons_of_mem i hj

/-- Bindings and reservations that are retained agree as before. -/
theorem retains (h : Agrees s p a) (hs : s.Retains t) (ht : t.Sound) (hp : p.Retains q) :
    Agrees t q a where
  sound := ht
  held {key u id need} hu hn := by
    rcases hp.back hu with ⟨v, hv, -, hres, -⟩ | ⟨-, -, hres⟩
    · obtain ⟨x, hx, hb, hi⟩ := h.held hv (hres ▸ hn)
      obtain ⟨y, hy, hact, hb'⟩ := hs.kept hx
      exact ⟨y, hy, hb'.trans hb, hact ▸ hi⟩
    · rw [hres] at hn
      cases hn
  bound {id y key} hy hb := by
    rcases hs.back hy with ⟨x, hx, hb'⟩ | ⟨-, hnone⟩
    · rcases h.bound hx (hb'.trans hb) with ⟨v, need, hv, hn⟩ | howed
      · obtain ⟨u, hu, hn'⟩ := hp.kept hv hn
        exact .inl ⟨u, need, hu, hn'⟩
      · exact .inr howed
    · rw [hnone] at hb
      cases hb
  lost {key ids id} hj hid := by
    obtain ⟨hold, hun, hbind⟩ := h.lost hj hid
    refine ⟨Nat.lt_of_lt_of_le hold hs.nextId, fun {k u} hu => ?_, fun {y} hy => ?_⟩
    · rcases hp.back hu with ⟨v, hv, -, hres, -⟩ | ⟨-, -, hres⟩
      · rw [hres]
        exact hun hv
      · rw [hres]
        rfl
    · rcases hs.back hy with ⟨x, hx, hb'⟩ | ⟨hnew, -⟩
      · exact hb'.symm.trans (hbind hx)
      · omega
  drained {key seq} hj := by
    obtain ⟨hold, hdr⟩ := h.drained hj
    refine ⟨Nat.lt_of_lt_of_le hold hp.nextSeq, fun {u} hu hseq => ?_⟩
    rcases hp.back hu with ⟨v, hv, hs', hres, hrem⟩ | ⟨hnew, -, -⟩
    · have hd := hdr hv (hs'.symm.trans hseq)
      rw [Worker.isDrained, Bool.and_eq_true] at hd ⊢
      exact ⟨hrem hd.1, hres ▸ hd.2⟩
    · omega
  numbered {key u} hu := by
    rcases hp.back hu with ⟨v, hv, hs', -, -⟩ | ⟨-, hnew, -⟩
    · rw [hs']
      exact Nat.lt_of_lt_of_le (h.numbered hv) hp.nextSeq
    · exact hnew

/-! ## Passes -/

/-- A binding is kept on both sides. -/
theorem binds {x : Standing} {key : WorkerKey} {i : Implementation} (h : Agrees s p a)
    (hb : s.Binds p x key i t q) : Agrees t q a := by
  have hready : x.binding = none := h.sound.binding_of_ready hb.live hb.state
  -- what is bound somewhere is not the action that was ready
  have hother {j : Nat} {y : Standing} {k : WorkerKey} (hy : s.standing? j = some y)
      (hk : y.binding = some k) : j ≠ x.action.id := by
    intro hj
    rw [hj, hb.live] at hy
    rw [← Option.some_inj.mp hy, hready] at hk
    cases hk
  refine ⟨hb.sound h.sound, fun {k u id need} hu hn => ?_, fun {id y k} hy hk => ?_,
    fun {k ids id} hj hid => ?_, fun {k seq} hj => ?_, fun {k u} hu => ?_⟩
  · obtain ⟨v, hv, -, -, hres⟩ := hb.back hu
    rw [hres] at hn
    split at hn
    · next hnew =>
      obtain ⟨rfl, rfl⟩ := hnew
      have hst := hb.standing? x.action.id
      rw [if_pos rfl] at hst
      exact ⟨_, hst, rfl, i, hb.mem, Option.some_inj.mp hn⟩
    · obtain ⟨y, hy, hyb, hi⟩ := h.held hv hn
      exact ⟨y, by rw [hb.standing?, if_neg (hother hy hyb), hy], hyb, hi⟩
  · rw [hb.standing?] at hy
    split at hy
    · next hid =>
      rw [← Option.some_inj.mp hy, Option.some_inj] at hk
      obtain ⟨w, -, hw, -⟩ := hb.reserved
      obtain ⟨u, hu, hres⟩ := hb.kept hw
      exact .inl ⟨u, i.requirement, hk ▸ hu, by rw [hres, if_pos ⟨rfl, hid⟩]⟩
    · next hid =>
      rcases h.bound hy hk with ⟨v, need, hv, hn⟩ | howed
      · obtain ⟨u, hu, hres⟩ := hb.kept hv
        exact .inl ⟨u, need, hu, by rw [hres, if_neg fun hc => hid hc.2, hn]⟩
      · exact .inr howed
  · obtain ⟨hold, hun, hbind⟩ := h.lost hj hid
    have hne : id ≠ x.action.id := by
      intro he
      have hk := hbind (he ▸ hb.live)
      rw [hready] at hk
      cases hk
    refine ⟨hb.nextId ▸ hold, fun {k u} hu => ?_, fun {y} hy => ?_⟩
    · obtain ⟨v, hv, -, -, hres⟩ := hb.back hu
      rw [hres, if_neg fun hc => hne hc.2]
      exact hun hv
    · rw [hb.standing?, if_neg hne] at hy
      exact hbind hy
  · obtain ⟨hold, hdr⟩ := h.drained hj
    refine ⟨hb.nextSeq ▸ hold, fun {u} hu hs => ?_⟩
    obtain ⟨v, hv, hseq, hacc, -⟩ := hb.back hu
    have hd : v.isDrained = true := hdr hv (hseq.symm.trans hs)
    rcases hacc with ⟨-, hacc⟩ | rfl
    · -- a worker that accepts actions is not drained
      rw [Worker.not_drained_of_accepting hacc] at hd
      cases hd
    · exact hd
  · obtain ⟨v, hv, hseq, -, -⟩ := hb.back hu
    rw [hseq, hb.nextSeq]
    exact h.numbered hv

theorem steady (h : Agrees s p a) (c : Catalog) (n : Nat) : (Pass.start s p c [] n).Steady :=
  Pass.steady_start h.sound (fun {_} hid {_ _} hv => h.unheld hid hv) c n

/-- A pass that nothing disturbs keeps table and pool in agreement. -/
theorem passed {w : World} (h : Agrees w.schedule w.pool a) (hcalm : w.disturbances = []) :
    Agrees w.passed.schedule w.passed.pool a := by
  have hsteady := h.steady w.catalog w.scored
  rw [← hcalm] at hsteady
  exact (Pass.run_preserves w.policy hsteady (P := fun s p => Agrees s p a) h
    (fun _ ha hb => ha.binds hb)
    fun ha hre => ha.retains hre.retains (hre.sound ha.sound) (.refl _)).2

/-! ## Ends of actions -/

/-- Actions leave the table and their reservations leave the pool. -/
structure Dismisses (s : Schedule) (p : Pool) (t : Schedule) (q : Pool) : Prop where
  /-- The table is in order. -/
  sound : t.Sound
  /-- The same identifier is next. -/
  nextId : t.nextId = s.nextId
  /-- An action leaves or stays as it is. -/
  standing? : ∀ j, t.standing? j = none ∨ t.standing? j = s.standing? j
  /-- The same registration number is next. -/
  nextSeq : q.nextSeq = p.nextSeq
  /-- What is reserved was reserved, for an action that stays. -/
  back : ∀ {k u}, q.worker? k = some u → ∃ v, p.worker? k = some v ∧ u.seq = v.seq ∧
    (v.removing = true → u.removing = true) ∧ ∀ {j need}, u.reservations.get? j = some need →
      v.reservations.get? j = some need ∧ t.standing? j = s.standing? j
  /-- What is reserved for an action that stays is still reserved. -/
  kept : ∀ {k v j need}, p.worker? k = some v → v.reservations.get? j = some need →
    t.standing? j ≠ none → ∃ u, q.worker? k = some u ∧ u.reservations.get? j = some need

/-- Actions that leave take bindings and reservations with them. -/
theorem dismisses (h : Agrees s p a) (hd : Dismisses s p t q) : Agrees t q a where
  sound := hd.sound
  held {k u j need} hu hn := by
    obtain ⟨v, hv, -, -, hres⟩ := hd.back hu
    obtain ⟨hn', hst⟩ := hres hn
    rw [hst]
    exact h.held hv hn'
  bound {j y k} hy hk := by
    have hne : t.standing? j ≠ none := by simp [hy]
    rw [(hd.standing? j).resolve_left hne] at hy
    rcases h.bound hy hk with ⟨v, need, hv, hn⟩ | howed
    · obtain ⟨u, hu, hn'⟩ := hd.kept hv hn hne
      exact .inl ⟨u, need, hu, hn'⟩
    · exact .inr howed
  lost {k ids j} hj hmem := by
    obtain ⟨hold, hun, hbind⟩ := h.lost hj hmem
    refine ⟨hd.nextId ▸ hold, fun {k u} hu => ?_, fun {y} hy => ?_⟩
    · obtain ⟨v, hv, -, -, hres⟩ := hd.back hu
      cases hn : u.reservations.get? j with
      | none => rfl
      | some need =>
        have hn' := (hres hn).1
        rw [hun hv] at hn'
        cases hn'
    · rw [(hd.standing? j).resolve_left (by simp [hy])] at hy
      exact hbind hy
  drained {k seq} hj := by
    obtain ⟨hold, hdr⟩ := h.drained hj
    refine ⟨hd.nextSeq ▸ hold, fun {u} hu hs => ?_⟩
    obtain ⟨v, hv, hseq, hrem, hres⟩ := hd.back hu
    have hdv := hdr hv (hseq.symm.trans hs)
    have hnone := Worker.get?_of_drained hdv
    rw [Worker.isDrained, Bool.and_eq_true] at hdv ⊢
    refine ⟨hrem hdv.1, SortedMap.isEmpty_iff_get?.mpr ?_⟩
    intro j
    cases hn : u.reservations.get? j with
    | none => rfl
    | some need =>
      have hn' := (hres hn).1
      rw [hnone] at hn'
      cases hn'
  numbered {k u} hu := by
    obtain ⟨v, hv, hseq, -, -⟩ := hd.back hu
    rw [hseq, hd.nextSeq]
    exact h.numbered hv

/-- An action that ends is dismissed. -/
theorem dismisses_conclude {id : Nat} {x : Entry} (h : Agrees s p a)
    (live : s.actions.get? id = some x) (events : List Event) (last : ActionState) :
    Dismisses s p (s.conclude p x events last).1 (s.conclude p x events last).2.1 := by
  have hx : s.standing? x.action.id = some x.standing := by
    have hx' : s.standing? id = some x.standing :=
      Schedule.standing?_eq_some_iff.mpr ⟨x, live, rfl⟩
    rw [show x.action.id = id from h.sound.named hx']
    exact hx'
  have hst (j : Nat) : (s.conclude p x events last).1.standing? j =
      if j = x.action.id then none else s.standing? j := Schedule.standing?_conclude s j
  refine ⟨Schedule.sound_conclude h.sound, (Schedule.conclude_frame s p x events last).2.2,
    fun j => ?_, ?_, fun {k u} hu => ?_, fun {k v j need} hv hn hne => ?_⟩
  · rw [hst]
    split
    · exact .inl rfl
    · exact .inr rfl
  · rw [Schedule.pool_conclude]
    rcases Schedule.releaseBinding_cases p x with ⟨hp, -, -⟩ | ⟨_, _, _, -, -, -, hp, -⟩ <;> rw [hp]
  · rw [Schedule.pool_conclude] at hu
    rcases Schedule.releaseBinding_cases p x with ⟨hp, -, hnone⟩ | ⟨key, v, v', hb, hv, hr, hp, -⟩
    · rw [hp] at hu
      refine ⟨u, hu, rfl, fun hr => hr, fun {j need} hn => ⟨hn, ?_⟩⟩
      rw [hst, if_neg fun hj => ?_]
      obtain ⟨y, hy, hk, -⟩ := h.held hu hn
      rw [hj, hx] at hy
      rw [← Option.some_inj.mp hy] at hk
      rw [hj, hnone hk hu] at hn
      cases hn
    · obtain ⟨held, -, hv'⟩ := Worker.release?_eq_some_iff.mp hr
      rw [Pool.worker?_of_insert (by rw [hp])] at hu
      split at hu
      · next hk =>
        rw [← Option.some_inj.mp hu, hv']
        refine ⟨v, hk ▸ hv, rfl, fun hr => hr, fun {j need} hn => ?_⟩
        rw [SortedMap.get?_erase] at hn
        split at hn
        · cases hn
        · next hj => exact ⟨hn, by rw [hst, if_neg hj]⟩
      · next hk =>
        refine ⟨u, hu, rfl, fun hr => hr, fun {j need} hn => ⟨hn, ?_⟩⟩
        rw [hst, if_neg fun hj => ?_]
        obtain ⟨y, hy, hk', -⟩ := h.held hu hn
        rw [hj, hx] at hy
        rw [← Option.some_inj.mp hy] at hk'
        exact hk (Option.some_inj.mp (hk'.symm.trans hb))
  · have hj : j ≠ x.action.id := fun hj => hne (by rw [hst, if_pos hj])
    rw [Schedule.pool_conclude]
    rcases Schedule.releaseBinding_cases p x with ⟨hp, -, -⟩ | ⟨key, w, w', -, hw, hr, hp, -⟩
    · rw [hp]
      exact ⟨v, hv, hn⟩
    · obtain ⟨held, -, hw'⟩ := Worker.release?_eq_some_iff.mp hr
      by_cases hk : k = key
      · rw [hk, hw] at hv
        obtain rfl := Option.some_inj.mp hv
        refine ⟨w', by rw [Pool.worker?_of_insert (by rw [hp]), if_pos hk], ?_⟩
        rw [hw', SortedMap.get?_erase_of_ne _ hj, hn]
      · exact ⟨v, by rw [Pool.worker?_of_insert (by rw [hp]), if_neg hk, hv], hn⟩

/-- A worker that can leave at the end of an action is drained. -/
theorem drained_conclude {x : Entry} (h : Agrees s p a) (events : List Event) (last : ActionState)
    {d : WorkerKey × Nat} (hd : d ∈ (s.conclude p x events last).2.2.drained) :
    d.2 < (s.conclude p x events last).2.1.nextSeq ∧
      ∀ {v}, (s.conclude p x events last).2.1.worker? d.1 = some v → v.seq = d.2 →
        v.isDrained = true := by
  rw [Schedule.drained_conclude] at hd
  rw [Schedule.pool_conclude]
  rcases Schedule.releaseBinding_cases p x with ⟨-, hnil, -⟩ | ⟨key, v, v', -, hv, hr, hp, hdr⟩
  · rw [hnil] at hd
    cases hd
  · rw [hdr] at hd
    split at hd
    · next hdv =>
      have hseq : v'.seq = v.seq := by
        obtain ⟨held, -, hv'⟩ := Worker.release?_eq_some_iff.mp hr
        rw [hv']
      rw [List.mem_singleton.mp hd, hp, hseq]
      refine ⟨h.numbered hv, fun {u} hu _ => ?_⟩
      rw [Pool.worker?_of_insert rfl, if_pos rfl] at hu
      exact Option.some_inj.mp hu ▸ hdv
    · cases hd

/-- Workers that are drained may be owed to leave. -/
theorem owe {items : List Item} (h : Agrees s p a) {D : List (WorkerKey × Nat)}
    (mem : ∀ j ∈ items, j.isPlain = true ∨ ∃ d ∈ D, j = .retire d.1 d.2)
    (hD : ∀ d ∈ D, d.2 < p.nextSeq ∧ ∀ {v}, p.worker? d.1 = some v → v.seq = d.2 →
      v.isDrained = true) : Agrees s p (items ++ a) := by
  have hf {key : WorkerKey} {ids : List Nat} (hj : .failBound key ids ∈ items ++ a) :
      .failBound key ids ∈ a := by
    rcases List.mem_append.mp hj with hj | hj
    · rcases mem _ hj with hp | ⟨d, -, he⟩
      · cases hp
      · cases he
    · exact hj
  refine ⟨h.sound, h.held, fun hx hb => ?_, fun hj => h.lost (hf hj), fun {key seq} hj => ?_,
    h.numbered⟩
  · rcases h.bound hx hb with hres | ⟨ids, hids, hmem⟩
    · exact .inl hres
    · exact .inr ⟨ids, List.mem_append_right items hids, hmem⟩
  · rcases List.mem_append.mp hj with hj | hj
    · rcases mem _ hj with hp | ⟨d, hd, he⟩
      · cases hp
      · cases he
        exact hD d hd
    · exact h.drained hj

/-! ## Losses -/

/-- A lost worker takes its reservations with it, and its actions are owed to fail. -/
theorem lose {c : Catalog} {key : WorkerKey} {d : Pool.Departure} {items : List Item}
    (h : Agrees s p a) (hl : p.lose? c key = some d)
    (mem : ∀ j ∈ items, j.isPlain = true ∨ j = .failBound key d.bound)
    (follows : .failBound key d.bound ∈ items) : Agrees s d.pool (items ++ a) := by
  obtain ⟨v, hv, rfl⟩ := Pool.lose?_eq_some_iff.mp hl
  have hq := Pool.worker?_of_erase (Pool.workers_depart p c key v true)
  have hmem {j : Nat} : j ∈ v.bound ↔ ∃ need, v.reservations.get? j = some need := by
    rw [Worker.bound, SortedMap.mem_keys_iff, SortedMap.contains_iff]
  have hback {k : WorkerKey} {u : Worker} (hu : (p.depart c key v true).pool.worker? k = some u) :
      k ≠ key ∧ p.worker? k = some u := by
    rw [hq] at hu
    split at hu
    · cases hu
    · next hk => exact ⟨hk, hu⟩
  refine ⟨h.sound, fun hu hn => h.held (hback hu).2 hn, fun {id x k} hx hb => ?_,
    fun {k ids id} hj hid => ?_, fun {k seq} hj => ?_, fun hu => h.numbered (hback hu).2⟩
  · rcases h.bound hx hb with ⟨u, need, hu, hn⟩ | ⟨ids, hids, hid⟩
    · by_cases hk : k = key
      · rw [hk, hv] at hu
        rw [← Option.some_inj.mp hu] at hn
        rw [hk]
        exact .inr ⟨v.bound, List.mem_append_left a follows, hmem.mpr ⟨need, hn⟩⟩
      · exact .inl ⟨u, need, by rw [hq, if_neg hk, hu], hn⟩
    · exact .inr ⟨ids, List.mem_append_right items hids, hid⟩
  · have hnew (he : Item.failBound k ids = .failBound key v.bound) : id < s.nextId ∧
        (∀ {k u}, (p.depart c key v true).pool.worker? k = some u →
          u.reservations.get? id = none) ∧
        ∀ {x}, s.standing? id = some x → x.binding = some k := by
      cases he
      obtain ⟨need, hn⟩ := hmem.mp hid
      obtain ⟨x, hx, hb, -⟩ := h.held hv hn
      refine ⟨h.sound.old hx, fun {k u} hu => ?_, fun {y} hy => ?_⟩
      · -- a second reservation would be of an action bound elsewhere
        cases hn' : u.reservations.get? id with
        | none => rfl
        | some need' =>
          obtain ⟨y, hy, hyb, -⟩ := h.held (hback hu).2 hn'
          rw [hx] at hy
          rw [← Option.some_inj.mp hy, hb] at hyb
          exact absurd (Option.some_inj.mp hyb).symm (hback hu).1
      · rw [hx] at hy
        rw [← Option.some_inj.mp hy, hb]
    rcases List.mem_append.mp hj with hj | hj
    · rcases mem _ hj with hp | he
      · cases hp
      · exact hnew he
    · obtain ⟨hold, hun, hbind⟩ := h.lost hj hid
      exact ⟨hold, fun hu => hun (hback hu).2, hbind⟩
  · have hj' : .retire k seq ∈ a := by
      rcases List.mem_append.mp hj with hj | hj
      · rcases mem _ hj with hp | he
        · cases hp
        · cases he
      · exact hj
    obtain ⟨hold, hdr⟩ := h.drained hj'
    exact ⟨hold, fun hu => hdr (hback hu).2⟩

/-- When the actions of a lost worker have failed, nothing is owed for it. -/
theorem fail {key : WorkerKey} {ids : List Nat} {rest : List Item}
    (h : Agrees s p (.failBound key ids :: rest)) : Agrees (s.abandon key ids).1 p rest := by
  have hst := Schedule.standing?_abandon s key ids
  have hun {id : Nat} (hid : id ∈ ids) {k : WorkerKey} {v : Worker} (hv : p.worker? k = some v) :
      v.reservations.get? id = none := (h.lost List.mem_cons_self hid).2.1 hv
  have hd : Dismisses s p (s.abandon key ids).1 p := by
    refine ⟨Schedule.sound_abandon h.sound key ids, Schedule.nextId_abandon s key ids, fun j => ?_,
      rfl, fun {k u} hu => ⟨u, hu, rfl, fun hr => hr, fun {j need} hn => ⟨hn, ?_⟩⟩,
      fun hv hn _ => ⟨_, hv, hn⟩⟩
    · rw [hst]
      split
      · exact .inl rfl
      · exact .inr rfl
    · rw [hst, if_neg fun hj => ?_]
      rw [hun hj.1 hu] at hn
      cases hn
  have ha := h.dismisses hd
  refine ⟨ha.sound, ha.held, fun {id x k} hx hb => ?_,
    fun hj => ha.lost (List.mem_cons_of_mem _ hj),
    fun hj => ha.drained (List.mem_cons_of_mem _ hj), ha.numbered⟩
  rcases ha.bound hx hb with hres | ⟨ids', hids, hid⟩
  · exact .inl hres
  · rcases List.mem_cons.mp hids with he | hids
    · cases he
      rw [hst] at hx
      split at hx
      · cases hx
      · next hno =>
        refine absurd ⟨hid, ?_⟩ hno
        rw [Schedule.bindingOf?_eq, hx]
        exact hb
    · exact .inr ⟨ids', hids, hid⟩

/-! ## Every turn -/

/-- Every turn keeps table and pool in agreement. -/
theorem turn {w : World} {i : Item} {rest items : List Item} {d : List Disturbance}
    (h : Agrees w.schedule w.pool (i :: rest)) (hcalm : w.disturbances = [])
    (hi : ∀ key ids, i ≠ .failBound key ids) (ht : w.Turn i t q d items) :
    Agrees t q (items ++ rest) := by
  cases ht with
  | idle plain => exact h.tail hi plain
  | pass plain _ => exact (h.tail hi plain).passed hcalm
  | wake name plain _ =>
    exact (h.tail hi plain).retains (Schedule.promotes_wake _ name).retains
      (Schedule.sound_wake h.sound name) (.refl _)
  | submit task monitor plain _ =>
    exact (h.tail hi plain).retains (Schedule.retains_accept h.sound _ task monitor)
      (Schedule.sound_accept h.sound _ task monitor) (.refl _)
  | conclude events last live mem _ =>
    have hrest : Agrees w.schedule w.pool rest := h.tail hi Item.plain_nil
    exact (hrest.dismisses (hrest.dismisses_conclude live events last)).owe mem fun _ hd =>
      hrest.drained_conclude events last hd
  | run marked plain =>
    exact (h.tail hi plain).retains (Schedule.retains_markRunning marked)
      (Schedule.sound_markRunning h.sound marked) (.refl _)
  | offer adaptor _ plain _ =>
    exact (h.tail hi plain).retains (.refl _) h.sound (Pool.retains_add _ _ _ adaptor)
  | reduce key c plain =>
    exact (h.tail hi plain).retains (.refl _) h.sound (Pool.retains_reduce _ key c)
  | drain asked plain =>
    obtain ⟨v, hv, -, -, rfl⟩ := Pool.requestRemoval?_eq_draining_iff.mp asked
    exact (h.tail hi plain).retains (.refl _) h.sound
      (Pool.retains_of_insert hv rfl rfl rfl rfl fun _ => rfl)
  | leave asked plain =>
    obtain ⟨v, hv, hempty, rfl⟩ := Pool.requestRemoval?_eq_left_iff.mp asked
    exact (h.tail hi plain).retains (.refl _) h.sound
      (Pool.retains_of_erase hv (SortedMap.isEmpty_iff_get?.mp hempty) rfl rfl)
  | lose lost mem follows =>
    have hrest : Agrees w.schedule w.pool rest := h.tail hi Item.plain_nil
    exact hrest.lose lost mem follows
  | fail hf _ => exact absurd hf (hi _ _)
  | retire hr left plain =>
    obtain ⟨v, hv, hseq, rfl⟩ := Pool.retire?_eq_some_iff.mp left
    have hdr := (h.drained (hr ▸ List.mem_cons_self)).2 hv hseq
    exact (h.tail hi plain).retains (.refl _) h.sound
      (Pool.retains_of_erase hv (Worker.get?_of_drained hdr) rfl rfl)

end Agrees

namespace World

variable {w : World} {i : Item} {s : Schedule} {p : Pool} {d : List Disturbance} {items : List Item}

/-- What a turn leads to is plain, or lets a worker leave, or lets the actions of a worker fail that
is lost. -/
theorem Turn.cases_of_mem (h : w.Turn i s p d items) {j : Item} (hj : j ∈ items) :
    j.isPlain = true ∨ (∃ key seq, j = .retire key seq) ∨
      ∃ key ids, j = .failBound key ids ∧ p.worker? key = none := by
  cases h with
  | conclude events last _ mem _ =>
    rcases mem j hj with hp | ⟨e, -, he⟩
    · exact .inl hp
    · exact .inr (.inl ⟨e.1, e.2, he⟩)
  | lose lost mem _ =>
    obtain ⟨v, -, rfl⟩ := Pool.lose?_eq_some_iff.mp lost
    rcases mem j hj with hp | he
    · exact .inl hp
    · exact .inr (.inr ⟨_, _, he, Pool.worker?_depart_self _ _ _ _ _⟩)
  | idle plain => exact .inl (plain j hj)
  | pass plain _ => exact .inl (plain j hj)
  | wake _ plain _ => exact .inl (plain j hj)
  | submit _ _ plain _ => exact .inl (plain j hj)
  | run _ plain => exact .inl (plain j hj)
  | offer _ _ plain _ => exact .inl (plain j hj)
  | reduce _ _ plain => exact .inl (plain j hj)
  | drain _ plain => exact .inl (plain j hj)
  | leave _ plain => exact .inl (plain j hj)
  | fail _ plain => exact .inl (plain j hj)
  | retire _ _ plain => exact .inl (plain j hj)

/-- No turn leads to a command. -/
theorem Turn.not_obey (h : w.Turn i s p d items) (token : Nat) (c : Command) :
    .obey token c ∉ items := by
  intro hj
  rcases h.cases_of_mem hj with hp | ⟨_, _, he⟩ | ⟨_, _, he, -⟩
  · cases hp
  · cases he
  · cases he

/-- Whose actions are to fail is gone. -/
theorem Turn.gone_of_failBound (h : w.Turn i s p d items) {key : WorkerKey} {ids : List Nat}
    (hj : .failBound key ids ∈ items) : p.worker? key = none := by
  rcases h.cases_of_mem hj with hp | ⟨_, _, he⟩ | ⟨_, _, he, hgone⟩
  · cases hp
  · cases he
  · cases he
    exact hgone

/-- No turn brings disturbances where none were to come. -/
theorem Turn.calm {a : List Item} (h : w.Turn i s p d items) (ha : Agrees w.schedule w.pool a)
    (hcalm : w.disturbances = []) : d = [] := by
  cases h with
  | pass _ _ =>
    have hsteady := ha.steady w.catalog w.scored
    rw [← hcalm] at hsteady
    exact (Pass.run_of_steady w.policy hsteady).1
  | _ => exact hcalm

/-- Identifiers are never handed out again. -/
theorem Moves.nextId_le {a : List Item} {d : Deed} {s : Schedule} (h : w.Moves d s)
    (ha : Agrees w.schedule w.pool a) (hcalm : w.disturbances = []) :
    w.schedule.nextId ≤ s.nextId := by
  cases h with
  | same _ _ => exact Nat.le_refl _
  | pass =>
    have hsteady := ha.steady w.catalog w.scored
    rw [← hcalm] at hsteady
    exact (Pass.run_preserves w.policy hsteady (P := fun s _ => w.schedule.nextId ≤ s.nextId)
      (Nat.le_refl _) (fun _ hs hb => hb.nextId.symm ▸ hs) fun hs hre => hre.nextId.symm ▸ hs).2
  | wake name => exact Nat.le_of_eq (Schedule.promotes_wake _ name).1.symm
  | submit task monitor =>
    rw [Schedule.nextId_accept]
    exact Nat.le_succ _
  | conclude ending _ => exact Nat.le_of_eq (Schedule.conclude_frame _ _ _ _ _).2.2.symm
  | run marked => exact Nat.le_of_eq (Schedule.markRunning?_eq_some marked).1.symm
  | fail key ids => exact Nat.le_of_eq (Schedule.nextId_abandon _ key ids).symm

end World

/-- Nobody changes the pool behind the scheduler. -/
structure Conduct.SparesPool (rule : Conduct) : Prop where
  /-- Not between calls. -/
  asks : ∀ {c}, rule.asks c → c.surface ≠ .pool
  /-- Not in answer to an event. -/
  answers : ∀ {c}, rule.answers c → c.surface ≠ .pool

namespace Machine

/-- A machine whose table and pool agree and that nothing disturbs. -/
structure InAgreement (m : Machine) : Prop where
  /-- Table and pool agree, up to what is owed. -/
  agrees : Agrees m.world.schedule m.world.pool m.agenda
  /-- No disturbance is to come. -/
  calm : m.world.disturbances = []
  /-- No command on the agenda changes the pool behind the scheduler. -/
  spared : ∀ token c, .obey token c ∈ m.agenda → c.surface ≠ .pool

/-- What comes first takes one of the turns. -/
theorem InAgreement.turns {w : World} {i : Item} {rest : List Item}
    (h : InAgreement ⟨w, i :: rest⟩) : w.TurnsTo i (w.carryOut i) :=
  w.turn_carryOut fun token c hi => h.spared token c (hi ▸ List.mem_cons_self)

/-- One step keeps table and pool in agreement. -/
theorem InAgreement.step {w : World} {i : Item} {rest : List Item}
    (h : InAgreement ⟨w, i :: rest⟩) : InAgreement (Machine.step ⟨w, i :: rest⟩) := by
  have hturn := h.turns
  rw [step_cons]
  refine ⟨?_, hturn.calm h.agrees h.calm, ?_⟩
  · by_cases hi : ∃ key ids, i = .failBound key ids
    · obtain ⟨key, ids, rfl⟩ := hi
      have plain : Plain (w.carryOut (.failBound key ids)).2 :=
        Item.plain_ofOutbox (Schedule.drained_abandon w.schedule key ids)
      exact h.agrees.fail.owe (D := []) (fun j hj => .inl (plain j hj)) fun d hd => by cases hd
    · exact h.agrees.turn h.calm (fun key ids he => hi ⟨key, ids, he⟩) hturn
  · intro token c hj
    rcases List.mem_append.mp hj with hj | hj
    · exact absurd hj (hturn.not_obey token c)
    · exact h.spared token c (List.mem_cons_of_mem i hj)

variable {rule : Conduct} {policy : Policy} {localNodes : List String} {withholds : Bool}
  {limit : Nat} {t : List Moment} {m : Machine}

/-- Whatever happens through the scheduler, table and pool agree up to what is owed. -/
theorem Course.inAgreement (hrule : rule.SparesPool)
    (h : Course rule (World.fresh policy localNodes withholds limit) t m) : m.InAgreement := by
  induction h with
  | start => exact ⟨agrees_empty limit rfl, rfl, fun _ _ hj => by cases hj⟩
  | ask token _ hc ih =>
    refine ⟨ih.agrees.agenda ?_ ?_, ih.calm, ?_⟩
    · intro key ids
      simp
    · intro key seq hj
      simp at hj
    · intro token' c' hj
      cases List.mem_singleton.mp hj
      exact hrule.asks hc
  | item _ ih => exact ih.step
  | answer given _ hg ih =>
    refine ⟨ih.agrees.agenda ?_ ?_, ih.calm, ?_⟩
    · intro key ids
      simp
    · intro key seq hj
      simpa using hj
    · intro token' c' hj
      rcases List.mem_append.mp hj with hj | hj
      · obtain ⟨g, hmem, he⟩ := List.mem_map.mp hj
        cases he
        exact hrule.answers (hg g hmem)
      · exact ih.spared token' c' (List.mem_cons_of_mem _ hj)

end Machine

end TaskGrid
