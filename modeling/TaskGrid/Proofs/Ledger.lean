import TaskGrid.Proofs.Accounts
import TaskGrid.Proofs.Calls
import TaskGrid.Proofs.Instances
import TaskGrid.Proofs.Interference

/-!
# The ledger of a worker

The total of a worker and what the orchestration node keeps of it are booked by two operations
only: an offer adds to them, and a withdrawal that succeeds takes from the total.  So as long as a
worker is registered they can be read off what was offered to it and withdrawn from it since it
registered, and what the orchestration node keeps is one unit from the first offer with a unit to
spare, whatever came before it, and nothing more after it.

Nothing is assumed of the run: the pool may be changed behind the scheduler, and clients may answer.

* `withdrawnFrom`: what was withdrawn from a worker in a course.
* `Moment.Posts`: what a moment books, by three cases.
* `Worker.Booked`: a worker in the light of what it was offered and what was withdrawn.
* `Machine.Course.ledger`: the ledger of every worker of every course.
-/

namespace TaskGrid

/-! ## Withdrawals -/

/-- Whether a deed can be about the total of a worker. -/
def Deed.books : Deed → Bool
  | offer .. | reduce .. | pool _ => true
  | _ => false

namespace Moment

/-- The capacity that is to be withdrawn at a moment, and the key under which it is. -/
def reduction? (x : Moment) : Option (WorkerKey × Capacity) :=
  match x.deed with
  | .reduce key c => some (key, c)
  | .pool (.reduce key c) => some (key, c)
  | _ => none

/-- The units of a category that are withdrawn at a moment from the worker registered as `seq`.  A
withdrawal that is refused takes nothing. -/
def withdrawnFrom (x : Moment) (seq : Nat) (c : Category) : Nat :=
  match x.reduction? with
  | none => 0
  | some (key, amount) =>
    match (x.world.pool.reduce key amount).1 with
    | .error _ => 0
    | .ok v => if v.seq = seq then (amount.get c).count else 0

variable {x : Moment} {key : WorkerKey}

/-- An offer is made by an item that offers, or behind the scheduler. -/
theorem deed_of_offer? {offered : Capacity} (h : x.offer? = some (key, offered)) :
    x.deed = .offer key offered ∨ ∃ adaptor, x.deed = .pool (.add key offered adaptor) := by
  have hoffered : x.offered = .offer key offered := by
    rw [Moment.offered, h]
    rfl
  obtain ⟨w, i⟩ := x
  unfold offer? at h
  cases i
  case obey token c =>
    cases c
    case addWorker => cases h; exact .inl rfl
    case offerNode => exact .inl hoffered
    case pool o =>
      cases o
      case add => cases h; exact .inr ⟨_, rfl⟩
      all_goals cases h
    all_goals cases h
  case takeOver im => exact .inl hoffered
  case prepare p =>
    refine .inl ?_
    unfold deed
    dsimp only at h ⊢
    cases ho : p.offers with
    | nil => rw [ho] at h; cases h
    | cons o l => exact hoffered
  all_goals cases h

theorem offer?_of_not_books (h : x.deed.books = false) : x.offer? = none := by
  rw [Option.eq_none_iff_forall_ne_some]
  rintro ⟨key, offered⟩ ho
  rcases deed_of_offer? ho with hd | ⟨adaptor, hd⟩ <;> rw [hd] at h <;> cases h

theorem withdrawnFrom_of_none (h : x.reduction? = none) (seq : Nat) (c : Category) :
    x.withdrawnFrom seq c = 0 := by
  unfold withdrawnFrom
  rw [h]

theorem offeredTo_of_none (h : x.offer? = none) (seq : Nat) (c : Category) :
    x.offeredTo seq c = 0 := by
  unfold offeredTo
  rw [h]

end Moment

/-- The units of a category that were withdrawn from the worker registered as `seq`. -/
def withdrawnFrom (t : List Moment) (seq : Nat) (c : Category) : Nat :=
  (t.map fun x => x.withdrawnFrom seq c).sum

@[simp] theorem withdrawnFrom_cons (x : Moment) (t : List Moment) (seq : Nat) (c : Category) :
    withdrawnFrom (x :: t) seq c = x.withdrawnFrom seq c + withdrawnFrom t seq c := by
  rw [withdrawnFrom, List.map_cons, List.sum_cons, withdrawnFrom]

/-! ## What books nothing -/

namespace Pool

/-- From one pool to another, whoever is there has the total that it had, and as much is withheld
of it. -/
structure SameTotals (p q : Pool) : Prop where
  /-- Who is there was there, with the same number and the same capacity. -/
  back : ∀ {key u}, q.worker? key = some u → ∃ v, p.worker? key = some v ∧ u.seq = v.seq ∧
    u.total = v.total ∧ u.withheld = v.withheld
  /-- The same number is next. -/
  nextSeq : q.nextSeq = p.nextSeq
  /-- The same names are those of the orchestration node. -/
  localNodes : q.localNodes = p.localNodes
  /-- It keeps a unit or does not, as before. -/
  withholds : q.withholds = p.withholds

variable {p q r : Pool} {key : WorkerKey} {u v : Worker}

theorem SameTotals.refl (p : Pool) : p.SameTotals p :=
  ⟨fun {_ u} hu => ⟨u, hu, rfl, rfl, rfl⟩, rfl, rfl, rfl⟩

theorem SameTotals.of_eq (h : q = p) : p.SameTotals q := h ▸ .refl p

theorem SameTotals.trans (h : p.SameTotals q) (h' : q.SameTotals r) : p.SameTotals r where
  back hu := by
    obtain ⟨v, hv, hs, ht, hw⟩ := h'.back hu
    obtain ⟨z, hz, hs', ht', hw'⟩ := h.back hv
    exact ⟨z, hz, hs.trans hs', ht.trans ht', hw.trans hw'⟩
  nextSeq := h'.nextSeq.trans h.nextSeq
  localNodes := h'.localNodes.trans h.localNodes
  withholds := h'.withholds.trans h.withholds

/-- One worker is replaced by itself later. -/
theorem sameTotals_insert (hv : p.worker? key = some v) (hseq : u.seq = v.seq)
    (htotal : u.total = v.total) (hwithheld : u.withheld = v.withheld) :
    p.SameTotals { p with workers := p.workers.insert key u } where
  back {k x} hx := by
    rw [worker?_of_insert rfl] at hx
    split at hx
    · next hk =>
      rw [← Option.some_inj.mp hx]
      exact ⟨v, hk ▸ hv, hseq, htotal, hwithheld⟩
    · exact ⟨x, hx, rfl, rfl, rfl⟩
  nextSeq := rfl
  localNodes := rfl
  withholds := rfl

theorem sameTotals_depart (p : Pool) (c : Catalog) (key : WorkerKey) (w : Worker) (forced : Bool) :
    p.SameTotals (p.depart c key w forced).pool where
  back {k x} hx := by
    rw [worker?_of_erase (workers_depart p c key w forced)] at hx
    split at hx
    · cases hx
    · exact ⟨x, hx, rfl, rfl, rfl⟩
  nextSeq := rfl
  localNodes := rfl
  withholds := rfl

theorem sameTotals_reserve? {id : Nat} {need free : Capacity}
    (h : p.reserve? key id need = some (free, q)) : p.SameTotals q := by
  obtain ⟨v, v', hv, hr, -, rfl⟩ := reserve?_eq_some_iff.mp h
  obtain ⟨-, free, -, rfl⟩ := Worker.reserve?_eq_some_iff.mp hr
  exact sameTotals_insert hv rfl rfl rfl

theorem sameTotals_lose {c : Catalog} {d : Departure} (h : p.lose? c key = some d) :
    p.SameTotals d.pool := by
  obtain ⟨w, -, rfl⟩ := lose?_eq_some_iff.mp h
  exact sameTotals_depart p c key w true

theorem sameTotals_leave {c : Catalog} {hook : Option RemovalHook} {d : Departure}
    (h : p.requestRemoval? c key hook = some (.left d)) : p.SameTotals d.pool := by
  obtain ⟨w, -, -, rfl⟩ := requestRemoval?_eq_left_iff.mp h
  exact sameTotals_depart p c key _ false

theorem sameTotals_drain {c : Catalog} {hook : Option RemovalHook} {n : Nat}
    (h : p.requestRemoval? c key hook = some (.draining n q)) : p.SameTotals q := by
  obtain ⟨w, hw, -, -, rfl⟩ := requestRemoval?_eq_draining_iff.mp h
  exact sameTotals_insert (u := leaving w hook) hw rfl rfl rfl

/-- A withdrawal is refused and changes no total, or its worker has less by what is withdrawn. -/
theorem reduce_refused_or (p : Pool) (key : WorkerKey) (c : Capacity) :
    (∃ f, (p.reduce key c).1 = .error f) ∧ p.SameTotals (p.reduce key c).2 ∨
      ∃ v free total, p.worker? key = some v ∧ v.total.subtract c = .ok total ∧
        (p.reduce key c).1 = .ok (({ v with free, total } : Worker).view key) ∧
        (p.reduce key c).2 = { p with workers := p.workers.insert key { v with free, total } } := by
  unfold reduce
  cases hv : p.worker? key with
  | none => exact .inl ⟨⟨_, rfl⟩, .refl p⟩
  | some v =>
    dsimp only
    cases v.free.subtract c with
    | error s => exact .inl ⟨⟨_, rfl⟩, .refl p⟩
    | ok free =>
      dsimp only
      cases ht : v.total.subtract c with
      | error s => exact .inl ⟨⟨_, rfl⟩, sameTotals_insert (u := { v with free }) hv rfl rfl rfl⟩
      | ok total => exact .inr ⟨v, free, total, rfl, ht, rfl, rfl⟩

end Pool

/-- A pass that nothing disturbs only reserves. -/
theorem Pass.sameTotals_steps (policy : Policy) (n : Nat) {p : Pass} (h : p.disturbances = []) :
    p.pool.SameTotals (steps policy n p).pool := by
  induction n generalizing p with
  | zero => exact .refl _
  | succ n ih =>
    have hstep : p.pool.SameTotals (p.step policy).1.pool := by
      have hscored := best?_of_calm policy h
      cases hbest : (p.best? policy).2 with
      | none =>
        rw [step_of_best?_eq_none hbest, hscored]
        exact .refl _
      | some x =>
        rw [step_of_best?_eq_some hbest, hscored]
        dsimp only
        split
        · next free pool hr =>
          unfold bind
          dsimp only
          split
          · exact .refl _
          · exact Pool.sameTotals_reserve? hr
        · obtain ⟨views, hv⟩ := revise_eq
            { p with scored := p.scored + (candidates p.schedule p.views).length } x
          rw [hv]
          exact .refl _
    have hcalm := (calm_steps policy 1 h).1
    unfold steps at hcalm ⊢
    generalize p.step policy = r at hstep hcalm ⊢
    obtain ⟨q, more⟩ := r
    cases more with
    | false => exact hstep
    | true => exact hstep.trans (ih hcalm)

theorem World.sameTotals_passed {w : World} (h : w.disturbances = []) :
    w.pool.SameTotals w.passed.pool :=
  Pass.sameTotals_steps w.policy _
    (p := .start w.schedule w.pool w.catalog w.disturbances w.scored) h

theorem Schedule.sameTotals_releaseBinding (p : Pool) (x : Entry) :
    p.SameTotals (releaseBinding p x {}).1 := by
  rcases releaseBinding_cases p x with ⟨hp, -, -⟩ | ⟨key, v, v', -, hv, hr, hp, -⟩
  · exact .of_eq hp
  · obtain ⟨held, -, rfl⟩ := Worker.release?_eq_some_iff.mp hr
    rw [hp]
    exact Pool.sameTotals_insert hv rfl rfl rfl

/-! ## What a moment books -/

/-- What a moment books, if the pool is `q` afterwards. -/
inductive Moment.Posts (x : Moment) (q : Pool) : Prop where
  /-- Nothing. -/
  | nothing (same : x.world.pool.SameTotals q) (offers : x.offer? = none)
    (withdraws : ∀ seq c, x.withdrawnFrom seq c = 0)
  /-- An offer. -/
  | offer {key : WorkerKey} {offered : Capacity} (adaptor : Adaptor)
    (offers : x.offer? = some (key, offered)) (pool : q = (x.world.pool.add key offered adaptor).2)
    (withdraws : ∀ seq c, x.withdrawnFrom seq c = 0)
  /-- A withdrawal. -/
  | withdrawal {key : WorkerKey} {v : Worker} {amount free total : Capacity}
    (asked : x.reduction? = some (key, amount)) (live : x.world.pool.worker? key = some v)
    (less : v.total.subtract amount = .ok total)
    (pool : q = { x.world.pool with
      workers := x.world.pool.workers.insert key { v with free, total } })
    (offers : x.offer? = none)
    (withdraws : ∀ seq c, x.withdrawnFrom seq c = if v.seq = seq then (amount.get c).count else 0)

namespace Moment

variable {x : Moment} {q : Pool} {d : Deed} {key : WorkerKey} {u v : Worker}

/-- Only an offer changes what is withheld of a worker, and only an offer or a withdrawal its
total. -/
theorem Posts.frame (h : x.Posts q) (hv : x.world.pool.worker? key = some v)
    (hu : q.worker? key = some u) (ho : ∀ amount, x.offer? ≠ some (key, amount)) :
    u.withheld = v.withheld ∧
      ((∀ amount, x.reduction? ≠ some (key, amount)) → u.total = v.total) := by
  cases h with
  | nothing same _ _ =>
    obtain ⟨z, hz, -, ht, hw⟩ := same.back hu
    rw [hv] at hz
    obtain rfl := Option.some_inj.mp hz
    exact ⟨hw, fun _ => ht⟩
  | @offer k amount adaptor offers pool _ =>
    have hne : key ≠ k := fun he => ho amount (he ▸ offers)
    rw [pool, Pool.worker?_add_of_ne _ _ _ hne, hv] at hu
    obtain rfl := Option.some_inj.mp hu
    exact ⟨rfl, fun _ => rfl⟩
  | @withdrawal k z amount free total asked live _ pool _ _ =>
    rw [Pool.worker?_of_insert (congrArg Pool.workers pool)] at hu
    split at hu
    · next he =>
      rw [he, live] at hv
      obtain rfl := Option.some_inj.mp hv
      rw [← Option.some_inj.mp hu]
      exact ⟨rfl, fun hnone => absurd (he ▸ asked) (hnone amount)⟩
    · rw [hv] at hu
      obtain rfl := Option.some_inj.mp hu
      exact ⟨rfl, fun _ => rfl⟩

theorem posts_nothing (hd : x.deed = d) (hb : d.books = false) (h : x.world.pool.SameTotals q) :
    x.Posts q := by
  refine .nothing h (offer?_of_not_books (hd ▸ hb)) (withdrawnFrom_of_none ?_)
  unfold reduction?
  rw [hd]
  cases d <;> first | rfl | cases hb

theorem posts_reduce {amount : Capacity} (hx : x.reduction? = some (key, amount))
    (ho : x.offer? = none) : x.Posts (x.world.pool.reduce key amount).2 := by
  rcases x.world.pool.reduce_refused_or key amount with
    ⟨⟨f, hf⟩, hsame⟩ | ⟨v, free, total, hv, hless, hok, hq⟩
  · refine .nothing hsame ho fun seq c => ?_
    unfold withdrawnFrom
    rw [hx]
    dsimp only
    rw [hf]
  · refine .withdrawal hx hv hless hq ho fun seq c => ?_
    unfold withdrawnFrom
    rw [hx]
    dsimp only
    rw [hok]
    rfl

theorem posts_perform {o : Pool.Operation} (hd : x.deed = .pool o)
    (hx : ∃ token, x.item = .obey token (.pool o)) :
    x.Posts (x.world.pool.perform x.world.catalog o).pool := by
  have hreduction (h : ∀ key c, o ≠ .reduce key c) : x.reduction? = none := by
    unfold reduction?
    rw [hd]
    cases o <;> first | rfl | exact absurd rfl (h _ _)
  have hoffer (h : ∀ key c a, o ≠ .add key c a) : x.offer? = none := by
    unfold offer?
    obtain ⟨token, hi⟩ := hx
    rw [hi]
    cases o <;> first | rfl | exact absurd rfl (h _ _ _)
  cases o with
  | add key offered adaptor =>
    refine .offer adaptor ?_ rfl (withdrawnFrom_of_none (hreduction nofun))
    unfold offer?
    obtain ⟨token, hi⟩ := hx
    rw [hi]
  | reduce key amount =>
    have hpool : (x.world.pool.perform x.world.catalog (.reduce key amount)).pool =
        (x.world.pool.reduce key amount).2 := by
      unfold Pool.perform
      dsimp only
      split <;> next h => rw [h]
    rw [hpool]
    refine posts_reduce ?_ (hoffer nofun)
    unfold reduction?
    rw [hd]
  | remove key hook =>
    refine .nothing ?_ (hoffer nofun) (withdrawnFrom_of_none (hreduction nofun))
    unfold Pool.perform
    dsimp only
    split
    · exact .refl _
    · next h => exact Pool.sameTotals_leave h
    · next h => exact Pool.sameTotals_drain h
  | lose key =>
    refine .nothing ?_ (hoffer nofun) (withdrawnFrom_of_none (hreduction nofun))
    unfold Pool.perform
    dsimp only
    split
    · exact .refl _
    · next h => exact Pool.sameTotals_lose h
  | look key =>
    exact .nothing (.refl _) (hoffer nofun) (withdrawnFrom_of_none (hreduction nofun))

/-- Every moment that nothing disturbs books nothing, an offer or a withdrawal. -/
theorem posts_carryOut {w : World} (hcalm : w.disturbances = []) (i : Item) :
    Posts ⟨w, i⟩ (w.carryOut i).1.pool := by
  have hdone := doneBy_deed ⟨w, i⟩
  have hdoes := w.does_carryOut i
  generalize w.carryOut i = e at hdoes ⊢
  generalize hd : deed ⟨w, i⟩ = d at hdone hdoes
  cases hdoes with
  | idle still _ _ => exact posts_nothing hd rfl (.of_eq still.pool)
  | deliver m e => exact posts_nothing hd rfl (.of_eq (World.deliver_frame w m e).2.1)
  | tellHook hook r => exact posts_nothing hd rfl (.of_eq (World.tellHook_frame w hook r).2.1)
  | pass token => exact posts_nothing hd rfl (World.sameTotals_passed hcalm)
  | wake name => exact posts_nothing hd rfl (.of_eq (World.pool_wake w name))
  | conclude ending live _ _ =>
    exact posts_nothing hd rfl (Schedule.sameTotals_releaseBinding w.pool _)
  | offer key offered adaptor _ =>
    refine .offer adaptor hdone rfl (withdrawnFrom_of_none ?_)
    unfold reduction?
    rw [hd]
  | reduce key c _ =>
    have hx : reduction? ⟨w, i⟩ = some (key, c) := by
      unfold reduction?
      rw [hd]
    refine posts_reduce hx (Option.eq_none_iff_forall_ne_some.mpr ?_)
    rintro ⟨key', offered⟩ ho
    rcases deed_of_offer? ho with hd' | ⟨adaptor, hd'⟩ <;> rw [hd] at hd' <;> cases hd'
  | remove key hook _ =>
    refine posts_nothing hd rfl ?_
    unfold World.removeWorker
    dsimp only
    split
    · exact .refl _
    · next h => exact Pool.sameTotals_drain h
    · next h => exact Pool.sameTotals_leave h
  | lose lost _ => exact posts_nothing hd rfl (Pool.sameTotals_lose lost)
  | retire key seq =>
    refine posts_nothing hd rfl ?_
    unfold World.retire
    split
    · exact .refl _
    · next d h =>
      obtain ⟨v, -, -, rfl⟩ := Pool.retire?_eq_some_iff.mp h
      exact Pool.sameTotals_depart w.pool w.catalog key v false
  | pool token o => exact posts_perform hd hdone
  | _ => exact posts_nothing hd rfl (.refl _)

end Moment

/-! ## The books of one worker -/

/-- A worker to which `offered` was offered in all and from which `withdrawn` was withdrawn, on a
host of the orchestration node that keeps a unit if `keeps` says so. -/
structure Worker.Booked (v : Worker) (keeps : Bool) (offered withdrawn : Category → Nat) :
    Prop where
  /-- What was offered is in the total, withheld or withdrawn, unless more was offered than a unit
  count holds. -/
  balance : (∀ c, offered c ≤ Units.limit) →
    ∀ c, (v.total.get c).count + (v.withheld.get c).count + withdrawn c = offered c
  /-- One unit is withheld as soon as one was offered. -/
  withheld : v.withheld = if keeps = true ∧ 0 < offered .primary then .cpus 1 else .empty

namespace Worker

variable {v : Worker} {keeps : Bool} {offered withdrawn : Category → Nat} {amount total : Capacity}

theorem booked_new (seq : Nat) (adaptor : Adaptor) (keeps : Bool) :
    ({ seq, adaptor } : Worker).Booked keeps (fun _ => 0) fun _ => 0 where
  balance _ c := by simp
  withheld := by simp

/-- The unit is withheld from an offer if the orchestration node keeps one, has none yet, and there
is one in the offer. -/
theorem withheld_offer (v : Worker) (keeps : Bool) (amount : Capacity) :
    (v.offer keeps amount).withheld =
      if keeps ∧ v.withheld.get .primary = 0 ∧ amount.get .primary ≠ 0 then
        v.withheld.set .primary 1
      else v.withheld := by
  unfold offer grow
  split <;> rfl

/-- What of an offer is not added to the total is withheld. -/
theorem count_added_add_withheld (v : Worker) (keeps : Bool) (amount : Capacity) (c : Category) :
    ((v.added keeps amount).get c).count + ((v.offer keeps amount).withheld.get c).count =
      (amount.get c).count + (v.withheld.get c).count := by
  rw [withheld_offer, added]
  split
  · next h =>
    obtain ⟨-, hnone, hsome⟩ := h
    rw [Capacity.get_set, Capacity.get_set]
    split
    · next hc =>
      subst hc
      have hpos : (amount.get .primary).count ≠ 0 := fun h => hsome (Units.ext h)
      rw [hnone, Units.count_sub, Units.count_one, Units.count_zero]
      omega
    · rfl
  · rfl

theorem Booked.offer (h : v.Booked keeps offered withdrawn) (amount : Capacity) :
    (v.offer keeps amount).Booked keeps (fun c => (amount.get c).count + offered c) withdrawn where
  balance hfit c := by
    have hold := h.balance (fun k => Nat.le_trans (Nat.le_add_left _ _) (hfit k)) c
    have hadded := v.count_added_add_withheld keeps amount c
    have hless := v.count_added_le keeps amount c
    have hlimit := hfit c
    rw [total_offer, Capacity.count_get_merge]
    omega
  withheld := by
    rw [withheld_offer]
    have hold := h.withheld
    by_cases hbefore : keeps = true ∧ 0 < offered .primary
    · -- the unit is withheld already
      rw [if_pos hbefore] at hold
      have hone : v.withheld.get .primary ≠ 0 := by
        rw [hold]
        decide
      rw [if_neg fun hnew => hone hnew.2.1, hold,
        if_pos ⟨hbefore.1, Nat.lt_of_lt_of_le hbefore.2 (Nat.le_add_left _ _)⟩]
    · rw [if_neg hbefore] at hold
      rw [hold, Capacity.get_empty]
      by_cases hkeeps : keeps = true
      · have hnone : offered .primary = 0 := Nat.eq_zero_of_not_pos fun hp => hbefore ⟨hkeeps, hp⟩
        by_cases hamount : amount.get .primary = 0
        · rw [if_neg fun hnew => hnew.2.2 hamount, if_neg]
          rintro ⟨-, hp⟩
          rw [hnone, hamount] at hp
          cases hp
        · have hpos : (amount.get .primary).count ≠ 0 := fun h => hamount (Units.ext h)
          rw [if_pos ⟨hkeeps, rfl, hamount⟩, if_pos ⟨hkeeps, by omega⟩]
          rfl
      · rw [if_neg fun hnew => hkeeps hnew.1, if_neg fun hnew => hkeeps hnew.1]

theorem Booked.reduce {free : Capacity} (h : v.Booked keeps offered withdrawn)
    (hless : v.total.subtract amount = .ok total) :
    ({ v with free, total } : Worker).Booked keeps offered
      fun c => (amount.get c).count + withdrawn c where
  balance hfit c := by
    have hold := h.balance hfit c
    have hsub := Capacity.count_get_of_subtract hless c
    show (total.get c).count + (v.withheld.get c).count + _ = _
    omega
  withheld := h.withheld

/-- The books depend on the total and on what is withheld alone. -/
theorem Booked.congr {u : Worker} (h : v.Booked keeps offered withdrawn) (ht : u.total = v.total)
    (hw : u.withheld = v.withheld) : u.Booked keeps offered withdrawn where
  balance := by
    rw [ht, hw]
    exact h.balance
  withheld := hw.trans h.withheld

end Worker

/-! ## The books of a pool -/

/-- Numbers stay distinct when a worker is put under a key whose number no other key has. -/
theorem Pool.Distinct.insert {p q : Pool} {key : WorkerKey} {u : Worker} (h : p.Distinct)
    (hq : q.workers = p.workers.insert key u)
    (hown : ∀ {k v}, p.worker? k = some v → v.seq = u.seq → k = key) : q.Distinct := by
  intro k k' v v' hv hv' hs
  rw [worker?_of_insert hq] at hv hv'
  split at hv
  · next hk =>
    split at hv'
    · next hk' => exact hk.trans hk'.symm
    · rw [← Option.some_inj.mp hv] at hs
      exact hk.trans (hown hv' hs.symm).symm
  · split at hv'
    · next hk' =>
      rw [← Option.some_inj.mp hv'] at hs
      exact (hown hv hs).trans hk'.symm
    · exact h hv hv' hs

theorem Pool.isLocal_congr {p q : Pool} (h : q.localNodes = p.localNodes) (name : String) :
    q.isLocal name = p.isLocal name := by
  unfold isLocal
  rw [h]

/-- The ledger of the workers of a pool that was configured as `p₀`, in the light of the moments. -/
structure Pool.Booked (p₀ : Pool) (t : List Moment) (p : Pool) : Prop where
  /-- The same names are those of the orchestration node. -/
  localNodes : p.localNodes = p₀.localNodes
  /-- It keeps a unit or does not, as configured. -/
  withholds : p.withholds = p₀.withholds
  /-- Numbers of workers have been used. -/
  numbered : ∀ {key v}, p.worker? key = some v → v.seq < p.nextSeq
  /-- No two workers have the same number. -/
  distinct : p.Distinct
  /-- Nothing was booked under a number that was not used. -/
  blank : ∀ {seq}, p.nextSeq ≤ seq → ∀ c, offeredTo t seq c = 0 ∧ withdrawnFrom t seq c = 0
  /-- The books of every worker. -/
  booked : ∀ {key v}, p.worker? key = some v →
    v.Booked (p₀.withholds && p₀.isLocal key.name) (offeredTo t v.seq) (withdrawnFrom t v.seq)

namespace Pool.Booked

variable {p₀ q : Pool} {x : Moment} {t : List Moment} {key : WorkerKey} {u : Worker}

/-- A moment that books nothing under a number leaves what was booked there. -/
theorem booked_cons_of_zero {v : Worker} {keeps : Bool} {seq : Nat}
    (h : v.Booked keeps (offeredTo t seq) (withdrawnFrom t seq))
    (ho : ∀ c, x.offeredTo seq c = 0) (hw : ∀ c, x.withdrawnFrom seq c = 0) :
    v.Booked keeps (offeredTo (x :: t) seq) (withdrawnFrom (x :: t) seq) := by
  have hoffered : offeredTo (x :: t) seq = offeredTo t seq := by
    funext c
    rw [offeredTo_cons, ho, Nat.zero_add]
  have hwithdrawn : withdrawnFrom (x :: t) seq = withdrawnFrom t seq := by
    funext c
    rw [withdrawnFrom_cons, hw, Nat.zero_add]
  rw [hoffered, hwithdrawn]
  exact h

theorem nothing (h : p₀.Booked t x.world.pool) (same : x.world.pool.SameTotals q)
    (ho : x.offer? = none) (hw : ∀ seq c, x.withdrawnFrom seq c = 0) : p₀.Booked (x :: t) q where
  localNodes := same.localNodes.trans h.localNodes
  withholds := same.withholds.trans h.withholds
  numbered hu := by
    obtain ⟨v, hv, hs, -⟩ := same.back hu
    rw [hs, same.nextSeq]
    exact h.numbered hv
  distinct hu hu' hs := by
    obtain ⟨v, hv, hseq, -⟩ := same.back hu
    obtain ⟨v', hv', hseq', -⟩ := same.back hu'
    exact h.distinct hv hv' (hseq.symm.trans (hs.trans hseq'))
  blank {seq} hseq c := by
    rw [same.nextSeq] at hseq
    rw [offeredTo_cons, withdrawnFrom_cons, Moment.offeredTo_of_none ho, hw, Nat.zero_add,
      Nat.zero_add]
    exact h.blank hseq c
  booked hu := by
    obtain ⟨v, hv, hs, ht, hwith⟩ := same.back hu
    rw [hs]
    exact booked_cons_of_zero ((h.booked hv).congr ht hwith) (Moment.offeredTo_of_none ho _) (hw _)

/-- Something is booked with one worker, and nothing with the others. -/
theorem insert (h : p₀.Booked t x.world.pool)
    (hq : ∃ n, q = { x.world.pool with
      workers := x.world.pool.workers.insert key u, nextSeq := x.world.pool.nextSeq + n })
    (hnumber : u.seq < q.nextSeq)
    (hown : ∀ {k v}, x.world.pool.worker? k = some v → v.seq = u.seq → k = key)
    (hothers : ∀ seq, seq ≠ u.seq → ∀ c, x.offeredTo seq c = 0 ∧ x.withdrawnFrom seq c = 0)
    (hu : u.Booked (p₀.withholds && p₀.isLocal key.name) (offeredTo (x :: t) u.seq)
      (withdrawnFrom (x :: t) u.seq)) : p₀.Booked (x :: t) q := by
  obtain ⟨n, rfl⟩ := hq
  have hlook (k : WorkerKey) := Pool.worker?_of_insert
    (q := { x.world.pool with
      workers := x.world.pool.workers.insert key u, nextSeq := x.world.pool.nextSeq + n }) rfl k
  exact
    { localNodes := h.localNodes
      withholds := h.withholds
      numbered := fun {k v} hv => by
        rw [hlook] at hv
        split at hv
        · rw [← Option.some_inj.mp hv]
          exact hnumber
        · exact Nat.lt_of_lt_of_le (h.numbered hv) (Nat.le_add_right _ _)
      distinct := Pool.Distinct.insert h.distinct rfl hown
      blank := fun {seq} hseq c => by
        obtain ⟨ho, hw⟩ := hothers seq (Nat.ne_of_gt (Nat.lt_of_lt_of_le hnumber hseq)) c
        rw [offeredTo_cons, withdrawnFrom_cons, ho, hw, Nat.zero_add, Nat.zero_add]
        exact h.blank (Nat.le_trans (Nat.le_add_right _ _) hseq) c
      booked := fun {k v} hv => by
        rw [hlook] at hv
        split at hv
        · next hk =>
          rw [← Option.some_inj.mp hv, hk]
          exact hu
        · next hk =>
          have hne : v.seq ≠ u.seq := fun hs => hk (hown hv hs)
          exact booked_cons_of_zero (h.booked hv) (fun c => (hothers _ hne c).1)
            fun c => (hothers _ hne c).2 }

theorem withdrawal (h : p₀.Booked t x.world.pool) {v : Worker} {amount free total : Capacity}
    (hv : x.world.pool.worker? key = some v) (hless : v.total.subtract amount = .ok total)
    (ho : x.offer? = none) (hw : ∀ seq c, x.withdrawnFrom seq c =
      if v.seq = seq then (amount.get c).count else 0) :
    p₀.Booked (x :: t) { x.world.pool with
      workers := x.world.pool.workers.insert key { v with free, total } } := by
  refine h.insert (u := { v with free, total }) ⟨0, rfl⟩ (h.numbered (v := v) hv)
    (fun hz hs => h.distinct hz hv hs) ?_ ?_
  · intro seq hseq c
    rw [hw, if_neg fun hs => hseq hs.symm]
    exact ⟨Moment.offeredTo_of_none ho seq c, rfl⟩
  · have hoffered : offeredTo (x :: t) v.seq = offeredTo t v.seq := by
      funext c
      rw [offeredTo_cons, Moment.offeredTo_of_none ho, Nat.zero_add]
    have hwithdrawn : withdrawnFrom (x :: t) v.seq =
        fun c => (amount.get c).count + withdrawnFrom t v.seq c := by
      funext c
      rw [withdrawnFrom_cons, hw, if_pos rfl]
    show Worker.Booked _ _ (offeredTo (x :: t) v.seq) (withdrawnFrom (x :: t) v.seq)
    rw [hoffered, hwithdrawn]
    exact (h.booked hv).reduce hless

/-- An offer is booked with the worker of its key, which is registered if need be. -/
theorem offer (h : p₀.Booked t x.world.pool) {amount : Capacity} (adaptor : Adaptor)
    (ho : x.offer? = some (key, amount)) (hw : ∀ seq c, x.withdrawnFrom seq c = 0) :
    p₀.Booked (x :: t) (x.world.pool.add key amount adaptor).2 := by
  have hconfig : (x.world.pool.withholds && x.world.pool.isLocal key.name) =
      (p₀.withholds && p₀.isLocal key.name) := by
    rw [h.withholds, Pool.isLocal_congr h.localNodes]
  obtain ⟨v, hv⟩ : ∃ v, x.world.pool.offeredWorker key adaptor = v := ⟨_, rfl⟩
  -- the worker as it was before, registered or new
  have hbefore : v.seq = x.world.pool.offeredSeq key ∧
      v.Booked (p₀.withholds && p₀.isLocal key.name) (offeredTo t v.seq) (withdrawnFrom t v.seq) ∧
      v.seq < (x.world.pool.add key amount adaptor).2.nextSeq ∧
      (∃ n, (x.world.pool.add key amount adaptor).2.nextSeq = x.world.pool.nextSeq + n) ∧
      ∀ {k z}, x.world.pool.worker? k = some z → z.seq = v.seq → k = key := by
    unfold Pool.offeredSeq
    rcases Pool.offeredWorker_cases x.world.pool key amount adaptor with
      ⟨z, hz, hsame, hnext⟩ | ⟨hnone, hnew, hnext⟩
    · obtain rfl : z = v := hsame.symm.trans hv
      rw [hz, hnext]
      exact ⟨rfl, h.booked hz, h.numbered hz, ⟨0, rfl⟩, fun hy hs => h.distinct hy hz hs⟩
    · rw [hv] at hnew
      subst hnew
      rw [hnone, hnext]
      have hblank := h.blank (Nat.le_refl x.world.pool.nextSeq)
      refine ⟨rfl, ?_, Nat.lt_succ_self _, ⟨1, rfl⟩, fun {k z} hz hs => ?_⟩
      · rw [funext fun c => (hblank c).1, funext fun c => (hblank c).2]
        exact Worker.booked_new _ adaptor _
      · exact absurd hs (Nat.ne_of_lt (h.numbered hz))
  obtain ⟨hseq, hbooked, hnumber, ⟨n, hn⟩, hown⟩ := hbefore
  have hnew : (v.offer (p₀.withholds && p₀.isLocal key.name) amount).seq = v.seq :=
    Worker.seq_offer _ _ _
  have hpool : (x.world.pool.add key amount adaptor).2 = { x.world.pool with
      workers := x.world.pool.workers.insert key
        (v.offer (p₀.withholds && p₀.isLocal key.name) amount)
      nextSeq := x.world.pool.nextSeq + n } := by
    rw [← hn, ← hv, ← hconfig]
    rfl
  refine h.insert ⟨n, hpool⟩ (hnew.symm ▸ hnumber) (fun hz hs => hown hz (hs.trans hnew)) ?_ ?_
  · intro seq hother c
    rw [hnew, hseq] at hother
    unfold Moment.offeredTo
    rw [ho, hw]
    exact ⟨if_neg fun hs => hother hs.symm, rfl⟩
  · rw [hnew]
    have hoffered : offeredTo (x :: t) v.seq =
        fun c => (amount.get c).count + offeredTo t v.seq c := by
      funext c
      rw [offeredTo_cons]
      unfold Moment.offeredTo
      rw [ho]
      dsimp only
      rw [if_pos hseq.symm]
    have hwithdrawn : withdrawnFrom (x :: t) v.seq = withdrawnFrom t v.seq := by
      funext c
      rw [withdrawnFrom_cons, hw, Nat.zero_add]
    rw [hoffered, hwithdrawn]
    exact hbooked.offer amount

theorem posts (h : p₀.Booked t x.world.pool) (hx : x.Posts q) : p₀.Booked (x :: t) q := by
  cases hx with
  | nothing same offers withdraws => exact h.nothing same offers withdraws
  | offer adaptor offers pool withdraws => exact pool ▸ h.offer adaptor offers withdraws
  | withdrawal _ live less pool offers withdraws =>
    exact pool ▸ h.withdrawal live less offers withdraws

end Pool.Booked

/-! ## Along a course -/

namespace Machine

variable {rule : Conduct} {policy : Policy} {localNodes : List String} {withholds : Bool}
  {limit : Nat} {t : List Moment} {m : Machine}

/-- In the course of time no less was offered. -/
theorem offeredTo_le_append (t₁ t₀ : List Moment) (seq : Nat) (c : Category) :
    offeredTo t₀ seq c ≤ offeredTo (t₁ ++ t₀) seq c := by
  induction t₁ with
  | nil => exact Nat.le_refl _
  | cons x t₁ ih =>
    rw [List.cons_append, offeredTo_cons]
    exact Nat.le_trans ih (Nat.le_add_left _ _)

theorem Course.booked (h : Course rule (World.fresh policy localNodes withholds limit) t m) :
    (World.fresh policy localNodes withholds limit).pool.Booked t m.world.pool := by
  induction h with
  | start =>
    exact
      { localNodes := rfl
        withholds := rfl
        numbered := fun hv => by cases hv
        distinct := fun hv => by cases hv
        blank := fun _ _ => ⟨rfl, rfl⟩
        booked := fun hv => by cases hv }
  | ask _ _ _ ih => exact ih
  | answer _ _ _ ih => exact ih
  | item hc ih => exact ih.posts (Moment.posts_carryOut (hc.calm rfl) _)

/-- In every run, whatever is done to the pool, the total of a worker, what is withheld of it and
what was withdrawn from it since it registered make up what was offered to it, unless more was
offered than a unit count holds.  One unit is withheld exactly if the orchestration node keeps one,
the worker is on it, and a unit was offered to it; from then on nothing more is.  Only an offer and
a withdrawal change the total, and only an offer what is withheld. -/
theorem Course.ledger (h : Course rule (World.fresh policy localNodes withholds limit) t m)
    {key : WorkerKey} {v : Worker} (hv : m.world.pool.worker? key = some v) :
    ((∀ c, offeredTo t v.seq c ≤ Units.limit) → ∀ c, (v.total.get c).count +
        (v.withheld.get c).count + withdrawnFrom t v.seq c = offeredTo t v.seq c) ∧
      (v.withheld = if withholds = true ∧
          (World.fresh policy localNodes withholds limit).pool.isLocal key.name = true ∧
          0 < offeredTo t v.seq .cpu then .cpus 1 else .empty) ∧
      (∀ x ∈ t, ∀ u, x.world.pool.worker? key = some u → u.seq = v.seq → u.withheld ≠ .empty →
        v.withheld = u.withheld) ∧
      ∀ x ∈ t, ∀ k a b, x.world.pool.worker? k = some a →
        (x.world.carryOut x.item).1.pool.worker? k = some b →
        (∀ amount, x.offer? ≠ some (k, amount)) →
          b.withheld = a.withheld ∧ ((∀ amount, x.reduction? ≠ some (k, amount)) →
            b.total = a.total) := by
  have hbooked := h.booked.booked hv
  have hcond : ((World.fresh policy localNodes withholds limit).pool.withholds &&
      (World.fresh policy localNodes withholds limit).pool.isLocal key.name) = true ↔
        withholds = true ∧
          (World.fresh policy localNodes withholds limit).pool.isLocal key.name = true :=
    Bool.and_eq_true _ _ ▸ .rfl
  refine ⟨hbooked.balance, ?_, ?_, ?_⟩
  · rw [hbooked.withheld]
    simp only [hcond, and_assoc]
    rfl
  · intro x hx u hu hseq hsome
    obtain ⟨t₁, t₀, rfl⟩ := List.append_of_mem hx
    obtain ⟨rest, hbefore⟩ := h.before
    have hthen := (hbefore.booked.booked hu).withheld
    split at hthen
    · next hone =>
      have hpos : 0 < offeredTo (t₁ ++ x :: t₀) v.seq .primary := by
        have hle := offeredTo_le_append (t₁ ++ [x]) t₀ u.seq .primary
        rw [List.append_assoc, List.singleton_append] at hle
        rw [← hseq]
        exact Nat.lt_of_lt_of_le hone.2 hle
      rw [hthen, hbooked.withheld, if_pos ⟨hone.1, hpos⟩]
    · exact absurd hthen hsome
  · intro x hx k a b ha hb ho
    obtain ⟨t₁, t₀, rfl⟩ := List.append_of_mem hx
    obtain ⟨rest, hbefore⟩ := h.before
    exact (Moment.posts_carryOut (hbefore.calm rfl) x.item).frame ha hb ho

/-! ### A unit that is kept late -/

/-- The orchestration node offers two devices. -/
def outfitting : Machine :=
  asked (.fresh .fifo ["m"] true 8) 0 (.addWorker (.permanent "m") { gpu := 1 + 1 } default)

/-- One of them is withdrawn. -/
def withdrawing : Machine :=
  asked (outfitting.advance 5).world 1 (.reduceWorker (.permanent "m") { gpu := 1 })

/-- Then units to keep one of are offered, behind the scheduler. -/
def carving : Machine :=
  asked (withdrawing.advance 3).world 2
    (.pool (.add (.permanent "m") (.cpus (1 + 1)) default))

/-- What is left is reserved. -/
def occupying : Machine :=
  asked (carving.advance 2).world 3 (.submit (.single (.cpus 1) "h") .silent)

/-- The moments of the grid until then. -/
def occupied : List Moment :=
  moments 8 occupying ++
    (moments 2 carving ++ (moments 3 withdrawing ++ (moments 5 outfitting ++ [])))

theorem course_occupying :
    Course (.quiet fun _ => True) (World.fresh .fifo ["m"] true 8) occupied
      ⟨(occupying.advance 8).world, []⟩ :=
  (((Course.start.call 0 5 trivial (by decide +kernel)).call 1 3 trivial
    (by decide +kernel)).call 2 2 trivial (by decide +kernel)).call 3 8 trivial (by decide +kernel)

/-- One unit and one device are left of the total, and one unit is withheld. -/
theorem ledger_occupying :
    ∃ v, (occupying.advance 8).world.pool.worker? (.permanent "m") = some v ∧
      v.total = { cpu := 1, gpu := 1 } ∧ v.free = { gpu := 1 } ∧ v.withheld = .cpus 1 ∧
      (∀ c, (v.total.get c).count + (v.withheld.get c).count + withdrawnFrom occupied v.seq c =
        offeredTo occupied v.seq c) ∧
      withdrawnFrom occupied v.seq .gpu = 1 ∧ offeredTo occupied v.seq .gpu = 2 := by
  obtain ⟨v, hv⟩ : ∃ v, (occupying.advance 8).world.pool.worker? (.permanent "m") = some v :=
    Option.isSome_iff_exists.mp (by decide +kernel)
  have hseq : ((occupying.advance 8).world.pool.worker? (.permanent "m")).map Worker.seq =
      some 0 := by decide +kernel
  have hparts : ((occupying.advance 8).world.pool.worker? (.permanent "m")).map
      (fun v => (v.total, v.free)) = some ({ cpu := 1, gpu := 1 }, { gpu := 1 }) := by
    decide +kernel
  rw [hv, Option.map_some, Option.some_inj] at hseq hparts
  have hfit (c : Category) : offeredTo occupied v.seq c ≤ Units.limit := by
    rw [hseq]
    cases c <;> decide +kernel
  obtain ⟨hsum, hwithheld, -, -⟩ := course_occupying.ledger hv
  refine ⟨v, hv, congrArg Prod.fst hparts, congrArg Prod.snd hparts, ?_, hsum hfit, ?_, ?_⟩
  · rw [hwithheld, hseq, if_pos ⟨rfl, by decide +kernel, by decide +kernel⟩]
  · rw [hseq]
    decide +kernel
  · rw [hseq]
    decide +kernel

end Machine

end TaskGrid
