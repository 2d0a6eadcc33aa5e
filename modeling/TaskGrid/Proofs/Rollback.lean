import TaskGrid.Proofs.History
import TaskGrid.Proofs.Nodes
import TaskGrid.Proofs.Sources

/-!
# Tasks that cannot be prepared

A task that runs as an application of its own is prepared first: a session is opened, the nodes of
the task are registered, and its data are taken over one after the other.  Only the data can be at
fault: one that has neither a replica nor another name that is registered by then cannot be taken
over.  The names of the data that were taken over before it are registered by then as well.

What was done until then is undone as far as it concerns the application.  No action was submitted,
the session is closed, and the nodes that it knows of are asked to leave: a pass may have bound
other actions to them in the meantime, and such a node leaves when the last of these has ended.
What was registered for others stays, such as hosts of data in the permanent pool.

## The argument

While a task is prepared nothing but offers, records of nodes and replicas comes about, apart from
passes and what is told, and these neither end nor accept actions, and nobody comes or goes by them
(`World.Completes.stays`).  So every node of the application is known to its session, apart from
the one that is just being registered (`World.Preparing`), and what the session hands back when it
closes are all of them (`World.Preparing.calledOff`).

* `World.Stays`, `World.Completes.stays`: what items of a low stage leave as it is.
* `World.CalledOff`: what is left of an application that could not be prepared.
* `Machine.Course.runsTask`: the call returns in every state, and this is what comes of it.
-/

namespace TaskGrid

open Sessions (isOpen_iff)

/-! ## What items of a low stage leave as it is -/

/-- A worker that something is reserved on was not asked to leave, and stays. -/
theorem Pool.carries_reserve {p q : Pool} {key : WorkerKey} {id : Nat} {need free : Capacity}
    (h : p.reserve? key id need = some (free, q)) : p.Carries q := by
  obtain ⟨v, hv, hr⟩ := Option.bind_eq_some_iff.mp h
  obtain ⟨v', hv', he⟩ := Option.map_eq_some_iff.mp hr
  cases he
  obtain ⟨hacc, rest, -, rfl⟩ := Worker.reserve?_eq_some_iff.mp hv'
  refine Pool.carries_of_insert hv rfl rfl ⟨rfl, rfl, rfl, fun hrem => ?_⟩
  rw [hacc] at hrem
  cases hrem

namespace Pass

/-- By a pass that nothing disturbs nobody comes or goes, whatever the table says. -/
theorem carries_steps (policy : Policy) (n : Nat) {p : Pass} (h : p.disturbances = []) :
    p.pool.Carries (steps policy n p).pool := by
  induction n generalizing p with
  | zero => exact .refl _
  | succ n ih =>
    have hstep : p.pool.Carries (p.step policy).1.pool := by
      unfold step
      rw [best?_of_calm policy h]
      cases ((candidates p.schedule p.views).foldl (choose policy p.catalog) none).map
        Prod.snd with
      | none => exact .refl _
      | some x =>
        dsimp only
        split
        · next free pool hreserve =>
          unfold bind
          dsimp only
          split
          · exact .refl _
          · exact Pool.carries_reserve hreserve
        · obtain ⟨views, hv⟩ := revise_eq
            { p with scored := p.scored + (candidates p.schedule p.views).length } x
          rw [hv]
          exact .refl _
    have hcalm : (p.step policy).1.disturbances = [] := by
      have hone := (calm_steps policy 1 h).1
      unfold steps at hone
      generalize p.step policy = r at hone ⊢
      obtain ⟨q, more⟩ := r
      cases more <;> exact hone
    unfold steps
    generalize p.step policy = r at hstep hcalm ⊢
    obtain ⟨q, more⟩ := r
    cases more with
    | false => exact hstep
    | true => exact hstep.trans (ih hcalm)

end Pass

/-- A node of an application with an open session has a key of its own. -/
theorem Sessions.keyFor_of_isOpen {s : Sessions} {app : ApplicationId} (h : s.isOpen app = true)
    (name : String) : s.keyFor name (some app) = .ok (.within name app) := by
  unfold keyFor ensure
  dsimp only
  rw [if_pos h]
  rfl

namespace World

variable {w v w' : World} {i : Item} {l : List Item} {t : List Moment}

/-- From one world to another no action is accepted or ends, nobody comes or goes, and the same
sessions are open. -/
structure Stays (w w' : World) : Prop where
  /-- Nothing is to disturb the pool. -/
  calm : w'.disturbances = []
  /-- The same actions are live. -/
  live : w.schedule.SameLive w'.schedule
  /-- The same workers are there. -/
  workers : w.pool.Carries w'.pool
  /-- The same sessions are open. -/
  sessions : w.SameSessions w'

theorem Stays.refl (hcalm : w.disturbances = []) : w.Stays w := ⟨hcalm, .refl _, .refl _, .refl w⟩

theorem Stays.trans (h : w.Stays v) (h' : v.Stays w') : w.Stays w' :=
  ⟨h'.calm, h.live.trans h'.live, h.workers.trans h'.workers, h.sessions.trans h'.sessions⟩

/-- Where neither actions nor workers change. -/
theorem stays_of_frame (hcalm : w'.disturbances = []) (schedule : w'.schedule = w.schedule)
    (pool : w'.pool = w.pool) (hs : w.SameSessions w') : w.Stays w' :=
  ⟨hcalm, schedule ▸ .refl _, pool ▸ .refl _, hs⟩

/-- Idle items change neither. -/
theorem stays_of_idle (hcalm : w.disturbances = []) (hd : Moment.deed ⟨w, i⟩ = .idle)
    (hs : w.SameSessions (w.carryOut i).1) : w.Stays (w.carryOut i).1 := by
  have hdoes := w.does_carryOut i
  rw [hd] at hdoes
  generalize w.carryOut i = e at hs hdoes ⊢
  cases hdoes with
  | idle still _ _ =>
    exact stays_of_frame (still.disturbances.trans hcalm) still.schedule still.pool hs

theorem stays_passed (hcalm : w.disturbances = []) (token : Option Nat) :
    w.Stays (w.runPass token).1 where
  calm := (calm_passed hcalm).1
  live := (Pass.stable_sameLive w.schedule).run w.policy (.refl _)
  workers := Pass.carries_steps w.policy
    (Pass.start w.schedule w.pool w.catalog w.disturbances w.scored).bound
    (p := Pass.start w.schedule w.pool w.catalog w.disturbances w.scored) hcalm
  sessions := ⟨rfl, rfl⟩

theorem stays_wake (hcalm : w.disturbances = []) (name : String) : w.Stays (w.wake name).1 where
  calm := calm_carryOut hcalm (.wake name)
  live := by
    unfold wake
    dsimp only
    split <;> exact w.schedule.sameLive_wake name
  workers := pool_wake w name ▸ .refl _
  sessions := by
    unfold wake
    dsimp only
    split <;> exact ⟨rfl, rfl⟩

theorem stays_carryOut (hcalm : w.disturbances = []) (hi : i.stage < 8) :
    w.Stays (w.carryOut i).1 := by
  have hcalm' : (w.carryOut i).1.disturbances = [] := calm_carryOut hcalm i
  cases i with
  | note n => exact stays_of_frame hcalm' rfl rfl ⟨rfl, rfl⟩
  | deliver m e =>
    exact stays_of_frame hcalm' (deliver_frame w m e).1 (deliver_frame w m e).2.1
      (sameSessions_deliver w m e)
  | tellHook hook r =>
    refine stays_of_frame hcalm' (tellHook_frame w hook r).1 (tellHook_frame w hook r).2.1 ?_
    dsimp only [carryOut, tellHook]
    split
    · exact ⟨rfl, rfl⟩
    · split <;> exact ⟨rfl, rfl⟩
  | pass token => exact stays_passed hcalm token
  | wake name => exact stays_wake hcalm name
  | prompt | addReplica => exact stays_of_idle hcalm rfl ⟨rfl, rfl⟩
  | report a c => exact stays_of_idle hcalm rfl (sameSessions_report w a c)
  | tellCapacity key free => exact stays_of_idle hcalm rfl (sameSessions_report w _ _)
  | tellRemoved r last => exact stays_of_idle hcalm rfl (sameSessions_tellRemoved w r last)
  | rescue b => exact stays_of_idle hcalm rfl (sameSessions_rescue w b)
  | handOver orders =>
    refine stays_of_idle hcalm rfl ?_
    dsimp only [carryOut]
    unfold handOver
    split
    · exact .refl w
    · exact ⟨rfl, rfl⟩
    · split
      · exact .refl w
      · dsimp only
        split <;> exact ⟨rfl, rfl⟩
  | _ => exact absurd hi (by simp [Item.stage])

/-- Items of a low stage and all that they lead to. -/
theorem Completes.stays (h : w.Completes l t w') (hcalm : w.disturbances = [])
    (hl : ∀ i ∈ l, i.stage < 8) : w.Stays w' :=
  (h.along (P := fun v => w.Stays v) (S := fun i => i.stage < 8)
    (fun {v i} hv hi => by
      refine ⟨hv.trans (stays_carryOut hv.calm hi), fun j hj => ?_⟩
      have hne : i ≠ .runDeferred := by
        rintro rfl
        exact absurd hi (by simp [Item.stage])
      exact Nat.lt_of_le_of_lt (below_of_mem hv.calm hne hj).stage_le hi)
    (.refl hcalm) hl).1

/-! ## The nodes of a session are released -/

variable {key : WorkerKey} {keys : List WorkerKey} {app : ApplicationId}

/-- If a worker is still there, it was asked to leave, and something is bound to it. -/
def Leaving (w : World) (key : WorkerKey) : Prop :=
  ∀ v, w.pool.worker? key = some v → v.removing = true ∧ v.reservations.isEmpty = false

theorem Stays.leaving (h : w.Stays w') (hk : w.Leaving key) : w'.Leaving key := by
  intro u hu
  obtain ⟨v, hv, hc⟩ := h.workers.back hu
  obtain ⟨hrem, hbusy⟩ := hk v hv
  exact ⟨hc.removing.trans hrem, hc.reservations hrem ▸ hbusy⟩

/-- From one world to another some workers were asked to leave, and nobody else. -/
structure Releases (w : World) (keys : List WorkerKey) (w' : World) : Prop where
  /-- Nothing is to disturb the pool. -/
  calm : w'.disturbances = []
  /-- The same actions are live. -/
  live : w.schedule.SameLive w'.schedule
  /-- The same sessions are open. -/
  sessions : w.SameSessions w'
  /-- Who was asked to leave has left, or waits for what is bound to it. -/
  leaving : ∀ {key}, key ∈ keys ∨ w.Leaving key → w'.Leaving key
  /-- Everybody else is still there. -/
  kept : ∀ {key v}, key ∉ keys → w.pool.worker? key = some v →
    ∃ u, w'.pool.worker? key = some u ∧ u.seq = v.seq

theorem Releases.trans {keys' : List WorkerKey} (h : w.Releases keys v)
    (h' : v.Releases keys' w') : w.Releases (keys ++ keys') w' where
  calm := h'.calm
  live := h.live.trans h'.live
  sessions := h.sessions.trans h'.sessions
  leaving := by
    intro key hk
    rw [List.mem_append, or_assoc] at hk
    rcases hk with hk | hk | hk
    · exact h'.leaving (.inr (h.leaving (.inl hk)))
    · exact h'.leaving (.inl hk)
    · exact h'.leaving (.inr (h.leaving (.inr hk)))
  kept := by
    intro key u hk hu
    rw [List.mem_append, not_or] at hk
    obtain ⟨u', hu', hs⟩ := h.kept hk.1 hu
    obtain ⟨z, hz, hs'⟩ := h'.kept hk.2 hu'
    exact ⟨z, hz, hs'.trans hs⟩

theorem Stays.releases (h : w.Stays w') : w.Releases [] w' :=
  ⟨h.calm, h.live, h.sessions, fun hk => h.leaving (hk.resolve_left List.not_mem_nil),
    fun _ hv => h.workers.kept hv⟩

/-- A request to leave is answered by leaving, or by waiting for what is bound. -/
theorem releases_removeWorker (hcalm : w.disturbances = []) (key : WorkerKey)
    (hook : Option RemovalHook) : w.Releases [key] (w.removeWorker key hook).2.1 := by
  have hsessions := sameSessions_removeWorker w key hook
  unfold removeWorker at hsessions ⊢
  cases hr : w.pool.requestRemoval? w.catalog key hook with
  | none =>
    have hnone : w.pool.worker? key = none := Option.map_eq_none_iff.mp hr
    refine ⟨hcalm, .refl _, .refl w, fun {k} hk => ?_, fun _ hv => ⟨_, hv, rfl⟩⟩
    rcases hk with hk | hk
    · rw [List.mem_singleton.mp hk]
      intro u hu
      rw [hnone] at hu
      cases hu
    · exact hk
  | some r =>
    cases r with
    | draining n q =>
      obtain ⟨v, hv, hbusy, -, rfl⟩ := Pool.requestRemoval?_eq_draining_iff.mp hr
      refine ⟨hcalm, .refl _, ⟨rfl, rfl⟩, fun {k} hk u hu => ?_, fun {k u} hk hu => ?_⟩
      · rw [Pool.worker?_of_insert rfl] at hu
        split at hu
        · cases hu
          exact ⟨rfl, hbusy⟩
        · next hne =>
          exact hk.resolve_left (fun hk => hne (List.mem_singleton.mp hk)) u hu
      · exact ⟨u, (Pool.worker?_of_insert rfl k).trans
          ((if_neg fun he => hk (List.mem_singleton.mpr he)).trans hu), rfl⟩
    | left d =>
      obtain ⟨v, hv, -, rfl⟩ := Pool.requestRemoval?_eq_left_iff.mp hr
      refine ⟨hcalm, .refl _, ⟨rfl, rfl⟩, fun {k} hk u hu => ?_, fun {k u} hk hu => ?_⟩
      · have hu := (Pool.worker?_of_erase rfl k).symm.trans hu
        split at hu
        · cases hu
        · next hne =>
          exact hk.resolve_left (fun hk => hne (List.mem_singleton.mp hk)) u hu
      · exact ⟨u, (Pool.worker?_of_erase rfl k).trans
          ((if_neg fun he => hk (List.mem_singleton.mpr he)).trans hu), rfl⟩

theorem Completes.releases (h : w.Completes (keys.map .releaseNode) t w')
    (hcalm : w.disturbances = []) : w.Releases keys w' := by
  induction keys generalizing w t with
  | nil =>
    obtain ⟨rfl, -⟩ := h.of_nil
    exact (Stays.refl hcalm).releases
  | cons key keys ih =>
    obtain ⟨_, v, _, hone, hrest, -⟩ := h.of_cons
    have hasked := releases_removeWorker hcalm key (some .agent)
    have htold := hone.stays hasked.calm (w.stage_removeWorker key (some .agent))
    exact (hasked.trans htold.releases).trans (ih hrest htold.calm)

/-! ## While a task is prepared -/

/-- Where a session is open there is an agent. -/
theorem agent_of_isOpen (h : w.sessions.isOpen app = true) :
    w.agent = some w.sessions ∧ ∃ x, w.sessions.live.get? app = some x := by
  obtain ⟨x, hx⟩ := isOpen_iff.mp h
  refine ⟨?_, x, hx⟩
  unfold sessions at hx ⊢
  cases hs : w.agent with
  | none =>
    rw [hs] at hx
    cases hx
  | some s => rfl

/-- A node is recorded in an open session. -/
theorem carryOut_joinNode {x : Session} (hagent : w.agent = some w.sessions)
    (hx : w.sessions.live.get? app = some x) (view : WorkerView) (next : Resume) :
    w.carryOut (.joinNode app view next) =
      ({ w with agent := some ⟨w.sessions.live.insert app
          { x with nodes := x.nodes.insert view.key }⟩ },
        resume (.pool (.view view)) next) := by
  have hnode : w.sessions.addNode app view.key =
      .ok ⟨w.sessions.live.insert app { x with nodes := x.nodes.insert view.key }⟩ := by
    rw [Sessions.addNode, hx]
  show w.joinNode app view next = _
  rw [joinNode, hnode]
  dsimp only
  rw [hagent, Option.map_some]

/-- An open session closes. -/
theorem carryOut_endSession {x : Session} (hagent : w.agent = some w.sessions)
    (hx : w.sessions.live.get? app = some x) :
    w.carryOut (.endSession app) =
      ({ w with agent := some ⟨w.sessions.live.erase app⟩ }, x.nodes.toList.map .releaseNode) := by
  have hfinish : w.sessions.finish? app = some (x.nodes.toList, ⟨w.sessions.live.erase app⟩) := by
    rw [Sessions.finish?, hx]
    rfl
  show w.endSession app = _
  rw [endSession, hagent, Option.bind_some, hfinish]

/-- What is left of an application that could not be prepared. -/
structure CalledOff (w : World) (app : ApplicationId) (w' : World) : Prop where
  /-- The same actions are live, and the same identifier is next. -/
  live : w.schedule.SameLive w'.schedule
  /-- The application has no open session. -/
  closed : w'.sessions.isOpen app = false
  /-- Its workers have left, or wait for what is bound to them. -/
  nodes : ∀ {key}, key.scope = some app → w'.Leaving key
  /-- The sessions of all others are as they were. -/
  sessions : ∀ {a}, a ≠ app → w'.sessions.live.get? a = w.sessions.live.get? a
  /-- All other workers are still there. -/
  workers : ∀ {key v}, key.scope ≠ some app → w.pool.worker? key = some v →
    ∃ u, w'.pool.worker? key = some u ∧ u.seq = v.seq

/-- What comes of a task that was to run as an application, if the datum `fault?` has no source:
the application is called off, or its action is submitted. -/
def Outcome (w : World) (app : ApplicationId) (token : Nat) (fault? : Option RemoteData)
    (w' : World) : Prop :=
  match fault? with
  | some q => w.CalledOff app w' ∧
      w'.log.head? = some (.replied token (.refused (.noDataSources q.name)))
  | none => w'.log.head? = some (.replied token (.started app w.schedule.nextId))

/-- A task is being prepared in the world `v` to run as an application that was opened in the
world `w`; the node `late` may be registered and not yet recorded. -/
structure Preparing (w : World) (app : ApplicationId) (late : Option WorkerKey) (v : World) :
    Prop where
  /-- Nothing is to disturb the pool. -/
  calm : v.disturbances = []
  /-- The same actions are live, and the same identifier is next. -/
  live : w.schedule.SameLive v.schedule
  /-- The session is open. -/
  isOpen : v.sessions.isOpen app = true
  /-- The sessions of all others are as they were. -/
  sessions : ∀ {a}, a ≠ app → v.sessions.live.get? a = w.sessions.live.get? a
  /-- The nodes that are recorded are those of the application. -/
  owned : ∀ {key}, v.Records app key → key.scope = some app
  /-- The nodes of the application are recorded. -/
  recorded : ∀ {key u}, v.pool.worker? key = some u → key.scope = some app →
    v.Records app key ∨ late = some key
  /-- Whoever was there is still there. -/
  kept : ∀ {key u}, w.pool.worker? key = some u →
    ∃ u', v.pool.worker? key = some u' ∧ u'.seq = u.seq

namespace Preparing

variable {late : Option WorkerKey}

theorem stays (h : w.Preparing app late v) (hs : v.Stays w') : w.Preparing app late w' where
  calm := hs.calm
  live := h.live.trans hs.live
  isOpen := hs.sessions.sessions ▸ h.isOpen
  sessions ha := hs.sessions.sessions ▸ h.sessions ha
  owned hr := h.owned (by rwa [Records, hs.sessions.sessions] at hr)
  recorded := by
    intro key u hu hscope
    obtain ⟨u', hu', -⟩ := hs.workers.back hu
    rw [Records, hs.sessions.sessions]
    exact h.recorded hu' hscope
  kept := by
    intro key u hu
    obtain ⟨u', hu', hseq⟩ := h.kept hu
    obtain ⟨z, hz, hseq'⟩ := hs.workers.kept hu'
    exact ⟨z, hz, hseq'.trans hseq⟩

/-- Capacity is offered under a key, which is then to be recorded. -/
theorem add (h : w.Preparing app none v) (key : WorkerKey) (offered : Capacity)
    (adaptor : Adaptor) :
    w.Preparing app (some key) { v with pool := (v.pool.add key offered adaptor).2 } where
  calm := h.calm
  live := h.live
  isOpen := h.isOpen
  sessions := h.sessions
  owned := h.owned
  recorded := by
    intro k u hu hscope
    by_cases hk : k = key
    · exact .inr (congrArg some hk.symm)
    · have hu : v.pool.worker? k = some u := (Pool.worker?_add_of_ne _ _ _ hk).symm.trans hu
      exact .inl ((h.recorded hu hscope).resolve_right fun hne => by cases hne)
  kept := by
    intro k u hu
    obtain ⟨u', hu', hseq⟩ := h.kept hu
    dsimp only
    by_cases hk : k = key
    · subst hk
      refine ⟨_, Pool.worker?_add_self _ _ _ _, ?_⟩
      rw [hu', Option.getD_some, Worker.seq_offer, hseq]
    · exact ⟨u', (Pool.worker?_add_of_ne _ _ _ hk).trans hu', hseq⟩

/-- A node of the permanent pool is recorded nowhere. -/
theorem of_permanent (h : w.Preparing app late v) (hlate : ∀ {key}, late = some key →
    key.scope ≠ some app) : w.Preparing app none v :=
  ⟨h.calm, h.live, h.isOpen, h.sessions, h.owned, fun hu hscope =>
    .inl ((h.recorded hu hscope).resolve_right fun he => hlate he hscope), h.kept⟩

/-- The node that was registered last is recorded. -/
theorem join (view : WorkerView) (next : Resume) (h : w.Preparing app (some view.key) v)
    (hscope : view.key.scope = some app) :
    ∃ u, v.carryOut (.joinNode app view next) = (u, resume (.pool (.view view)) next) ∧
      u.catalog = v.catalog ∧ w.Preparing app none u := by
  obtain ⟨hagent, x, hx⟩ := agent_of_isOpen h.isOpen
  refine ⟨_, carryOut_joinNode hagent hx view next, rfl, h.calm, h.live, ?_, fun {a} ha => ?_,
    fun {key} hr => ?_, fun {key u} hu hkey => ?_, h.kept⟩
  · exact isOpen_iff.mpr ⟨_, SortedMap.get?_insert_self _ _ _⟩
  · exact (SortedMap.get?_insert_of_ne _ _ ha).trans (h.sessions ha)
  · obtain ⟨y, hy, hmem⟩ := hr
    obtain rfl := Option.some.inj ((SortedMap.get?_insert_self _ _ _).symm.trans hy)
    rcases SortedSet.mem_insert.mp hmem with rfl | hmem
    · exact hscope
    · exact h.owned ⟨x, hx, hmem⟩
  · refine .inl ⟨_, SortedMap.get?_insert_self _ _ _, SortedSet.mem_insert.mpr ?_⟩
    rcases h.recorded hu hkey with ⟨y, hy, hmem⟩ | hlate
    · obtain rfl := Option.some.inj (hx.symm.trans hy)
      exact .inr hmem
    · exact .inl (Option.some.inj hlate).symm

/-- The nodes of a task are registered one after the other. -/
theorem exists_offered (h : w.Preparing app none v) (token : Nat) (offers : List Offer)
    (imports : List RemoteData) (submission : Submission) (monitor : Monitor) :
    ∃ u, w.Preparing app none u ∧ u.catalog = v.catalog ∧ ∀ t w',
      u.Completes [.prepare ⟨token, app, [], imports, submission, monitor⟩] t w' →
        ∃ t', v.Completes [.prepare ⟨token, app, offers, imports, submission, monitor⟩] t' w' := by
  induction offers generalizing v with
  | nil => exact ⟨v, h, rfl, fun t w' hc => ⟨t, hc⟩⟩
  | cons o rest ih =>
    by_cases hprimary : o.description.get .primary = 0
    · obtain ⟨u, hu, hcatalog, hgo⟩ := ih h
      refine ⟨u, hu, hcatalog, fun t w' hc => ?_⟩
      obtain ⟨t', hc'⟩ := hgo t w' hc
      exact ⟨_, Completes.single_of_eq (if_pos hprimary) hc'⟩
    · have hoffer : v.offering? (.prepare ⟨token, app, o :: rest, imports, submission, monitor⟩) =
          some (o, some app, .prepare ⟨token, app, rest, imports, submission, monitor⟩) :=
        if_neg hprimary
      have hkey : v.sessions.keyFor o.name (some app) = .ok (.within o.name app) :=
        Sessions.keyFor_of_isOpen h.isOpen o.name
      have hitem := carryOut_of_offering? hoffer
      unfold offer at hitem
      rw [hkey] at hitem
      dsimp only at hitem
      -- the worker is told about and a pass runs before it is recorded
      have hadded := h.add (.within o.name app) o.description o.adaptor
      have hlow := v.stage_addWorker_lt (.within o.name app) o.description o.adaptor
      obtain ⟨t₁, v₁, h₁, -, hcatalog₁⟩ := exists_completes_low hlow hadded.calm
      have hstays := h₁.stays hadded.calm fun j hj => Nat.lt_trans (hlow j hj) (by decide)
      obtain ⟨v₂, hjoin, hcatalog₂, hv₂⟩ := (hadded.stays hstays).join
        (v.addWorker (.within o.name app) o.description o.adaptor).1
        (.prepare ⟨token, app, rest, imports, submission, monitor⟩) rfl
      obtain ⟨u, hu, hcatalog, hgo⟩ := ih hv₂
      refine ⟨u, hu, hcatalog.trans (hcatalog₂.trans hcatalog₁), fun t w' hc => ?_⟩
      obtain ⟨t', hc'⟩ := hgo t w' hc
      exact ⟨_, Completes.single_of_eq hitem (h₁.append (Completes.single_of_eq hjoin hc'))⟩

/-- The session closes, and the application is called off. -/
theorem calledOff {token : Nat} {f : Fault} (h : w.Preparing app none v)
    (hc : v.Completes [.endSession app, .reply token (.refused f)] t w') :
    w.CalledOff app w' ∧ w'.log.head? = some (.replied token (.refused f)) := by
  refine ⟨?_, hc.answers (l := [.endSession app])⟩
  obtain ⟨hagent, x, hx⟩ := agent_of_isOpen h.isOpen
  obtain ⟨_, u, _, hend, hlast, -⟩ := hc.of_cons
  rw [carryOut_endSession hagent hx] at hend
  have hreleased := hend.releases h.calm
  have hdone := hreleased.trans (hlast.stays hreleased.calm (by
    simp [Item.stage, Item.reply])).releases
  rw [List.append_nil] at hdone
  have hsessions : w'.sessions = ⟨v.sessions.live.erase app⟩ := hdone.sessions.sessions
  have hnodes {key : WorkerKey} (hmem : key ∈ x.nodes.toList) : key.scope = some app :=
    h.owned ⟨x, hx, SortedSet.mem_toList.mp hmem⟩
  refine ⟨h.live.trans hdone.live, ?_, fun {key} hscope => ?_, fun {a} ha => ?_,
    fun {key u} hscope hu => ?_⟩
  · rw [hsessions]
    exact Bool.eq_false_iff.mpr fun hopen => by
      obtain ⟨y, hy⟩ := isOpen_iff.mp hopen
      rw [SortedMap.get?_erase_self] at hy
      cases hy
  · by_cases hmem : key ∈ x.nodes.toList
    · exact hdone.leaving (.inl hmem)
    · -- who is not recorded was not there
      refine hdone.leaving (.inr fun u hu => ?_)
      obtain ⟨y, hy, hkey⟩ := (h.recorded hu hscope).resolve_right fun hne => by cases hne
      obtain rfl := Option.some.inj (hx.symm.trans hy)
      exact absurd (SortedSet.mem_toList.mpr hkey) hmem
  · rw [hsessions, SortedMap.get?_erase_of_ne _ ha]
    exact h.sessions ha
  · obtain ⟨u', hu', hseq⟩ := h.kept hu
    obtain ⟨z, hz, hseq'⟩ := hdone.kept (fun hmem => hscope (hnodes hmem)) hu'
    exact ⟨z, hz, hseq'.trans hseq⟩

/-- The replicas of a datum are added one after the other. -/
theorem exists_added (h : w.Preparing app none v) (name : String) (l : List Replica) :
    ∃ t u, v.Completes (l.map fun r => .addReplica name r none) t u ∧ w.Preparing app none u ∧
      ∀ n, u.catalog.isRegistered n = true ↔
        v.catalog.isRegistered n = true ∨ l ≠ [] ∧ n = name := by
  induction l generalizing v with
  | nil => exact ⟨[], v, .nil v, h, fun n => by simp⟩
  | cons r l ih =>
    obtain ⟨t₁, v₁, h₁, -⟩ := exists_completes_of_stage (i := .addReplica name r none)
      (show 4 < 14 by decide) h.calm
    have hstays := h₁.stays h.calm fun j hj => by
      rw [List.mem_singleton.mp hj]
      exact (by decide : 4 < 8)
    obtain ⟨-, hcatalog⟩ := h₁.single_low h.calm (v.stage_addReplica name r none)
    have hcatalog : v₁.catalog = (v.catalog.addReplica name r).catalog := hcatalog
    obtain ⟨t₂, u, h₂, hu, hreg⟩ := ih (h.stays hstays)
    refine ⟨_, u, h₁.append h₂, hu, fun n => ?_⟩
    rw [hreg, hcatalog, Catalog.isRegistered_addReplica]
    simp only [ne_eq, List.cons_ne_nil, not_false_eq_true, true_and]
    tauto

/-- A datum is taken over; its name is registered then, if it has a source. -/
theorem exists_takenOver (h : w.Preparing app none v) (r : RemoteData) (next : Resume) :
    ∃ u, w.Preparing app none u ∧
      ((r.known v.catalog).length + r.replicas.length ≠ 0 → ∀ n,
        u.catalog.isRegistered n = true ↔ v.catalog.isRegistered n = true ∨ n = r.name) ∧
      ∀ t w', u.Completes
          [.takenOver r.name ((r.known v.catalog).length + r.replicas.length) next] t w' →
        ∃ t', v.Completes [beginTakeOver r next] t' w' := by
  obtain ⟨v₁, ⟨hv₁, hcatalog₁⟩, hgo⟩ := exists_gathered_of
    (P := fun u => w.Preparing app none u ∧ u.catalog = v.catalog) (fun hu => hu.1.calm)
    (fun hu => hu.2)
    (fun o hu => ⟨(hu.1.add (.permanent o.name) o.description o.adaptor).of_permanent (by
      rintro _ ⟨⟩ ⟨⟩), hu.2⟩)
    (fun hu hl hc => ⟨hu.1.stays (hc.stays hu.1.calm fun j hj => Nat.lt_trans (hl j hj)
      (by decide)), (hc.low hu.1.calm hl).2.1.trans hu.2⟩)
    { name := r.name, sources := r.sources, resume := next } ⟨h, rfl⟩
  have hgathered : Import.gathered { name := r.name, sources := r.sources, resume := next }
      v.catalog = ⟨r.name, [], (r.known v.catalog).length, (r.known v.catalog).getLast?,
        r.replicas, next⟩ := by
    simp [Import.gathered, RemoteData.known, RemoteData.replicas]
  rw [hgathered] at hgo
  obtain ⟨names, hitem⟩ := v₁.takeOver_nil r.name (r.known v.catalog).length
    (r.known v.catalog).getLast? r.replicas next
  -- the name is linked and announced, and the replicas are added
  have hlinked := hv₁.stays (show v₁.Stays { v₁ with
    catalog := Import.linked ⟨r.name, [], (r.known v.catalog).length,
      (r.known v.catalog).getLast?, r.replicas, next⟩ v₁.catalog } from
    stays_of_frame hv₁.calm rfl rfl ⟨rfl, rfl⟩)
  obtain ⟨t₂, v₂, h₂, -, hcatalog₂⟩ :=
    exists_completes_low (stage_announcements v₁ names) hlinked.calm
  have hv₂ := hlinked.stays (h₂.stays hlinked.calm fun j hj =>
    Nat.lt_trans (stage_announcements v₁ names j hj) (by decide))
  obtain ⟨t₃, u, h₃, hu, hreg⟩ := hv₂.exists_added r.name r.replicas
  refine ⟨u, hu, fun hsome n => ?_, fun t w' hc => ?_⟩
  · rw [hreg, hcatalog₂, hcatalog₁, Import.isRegistered_linked fun o ho =>
      RemoteData.isRegistered_of_mem_known (List.mem_of_getLast? ho), or_assoc]
    refine or_congr_right ⟨?_, fun hn => ?_⟩
    · rintro (⟨-, hn⟩ | ⟨-, hn⟩) <;> exact hn
    · by_cases hreplicas : r.replicas = []
      · refine .inl ⟨List.getLast?_isSome.mpr fun hknown => hsome ?_, hn⟩
        rw [hreplicas, hknown]
        rfl
      · exact .inr ⟨hreplicas, hn⟩
  · obtain ⟨t', hc'⟩ := hgo _ w' (Completes.single_of_eq hitem ((h₂.append h₃).append hc))
    exact ⟨t', hc'⟩

/-- What comes of a task whose nodes are registered. -/
theorem exists_outcome {c : Catalog} {earlier : List RemoteData} (h : w.Preparing app none v)
    (hknown : c.RegistersAlso earlier v.catalog) (token : Nat) (imports : List RemoteData)
    (submission : Submission) (monitor : Monitor) :
    ∃ t w', v.Completes [.prepare ⟨token, app, [], imports, submission, monitor⟩] t w' ∧
      w.Outcome app token (RemoteData.firstUnsourced? c earlier imports) w' := by
  induction imports generalizing v earlier with
  | nil =>
    obtain ⟨t, w', hc, -⟩ := exists_completes_of_stage
      (i := .prepare ⟨token, app, [], [], submission, monitor⟩) (show 13 < 14 by decide) h.calm
    refine ⟨t, w', hc, ?_⟩
    obtain ⟨_, hall, -⟩ := hc.of_single
    have hanswer : w'.log.head? = some (.replied token (.started app
        (v.schedule.accept v.catalog submission (.session app monitor)).1)) :=
      Completes.answers hall
    rw [Schedule.fst_accept, h.live.nextId] at hanswer
    exact hanswer
  | cons r rest ih =>
    let next : Resume := .prepare ⟨token, app, [], rest, submission, monitor⟩
    obtain ⟨u, hu, hreg, hgo⟩ := h.exists_takenOver r next
    have hbegin : v.carryOut (.prepare ⟨token, app, [], r :: rest, submission, monitor⟩) =
        (v, [beginTakeOver r next]) := rfl
    rw [RemoteData.firstUnsourced?]
    by_cases hun : r.Unsourced c earlier
    · rw [if_pos hun]
      have hnone := (RemoteData.unsourced_iff hknown).mp hun
      have hrefused : u.carryOut
          (.takenOver r.name ((r.known v.catalog).length + r.replicas.length) next) =
            (u, [.endSession app, .reply token (.refused (.noDataSources r.name))]) := by
        rw [hnone]
        rfl
      obtain ⟨t, w', hc, -⟩ := exists_completes_of_forall
        (l := [.endSession app, .reply token (.refused (.noDataSources r.name))])
        (fun j hj v hv => exists_completes_of_stage (by
          rcases List.mem_pair.mp hj with rfl | rfl <;> simp [Item.stage, Item.reply]) hv) hu.calm
      obtain ⟨t', hc'⟩ := hgo _ w' (Completes.single_of_eq hrefused hc)
      exact ⟨_, w', Completes.single_of_eq hbegin hc', hu.calledOff hc⟩
    · rw [if_neg hun]
      have hsome := mt (RemoteData.unsourced_iff hknown).mpr hun
      have hresumed : u.carryOut
          (.takenOver r.name ((r.known v.catalog).length + r.replicas.length) next) =
            (u, [.prepare ⟨token, app, [], rest, submission, monitor⟩]) :=
        congrArg (Prod.mk u) (if_neg hsome)
      obtain ⟨t, w', hc, hout⟩ := ih hu (hknown.append r (hreg hsome))
      obtain ⟨t', hc'⟩ := hgo _ w' (Completes.single_of_eq hresumed hc)
      exact ⟨_, w', Completes.single_of_eq hbegin hc', hout⟩

end Preparing

/-! ## A new application -/

/-- A session is opened for an application that has no workers yet. -/
theorem preparing_startSession {s : Sessions} (hs : w.agent = some s)
    (hcalm : w.disturbances = []) (monitor : Monitor)
    (hnew : ∀ {key u}, w.pool.worker? key = some u → key.scope ≠ some (.issued (w.opened + 1))) :
    w.Preparing (.issued (w.opened + 1)) none (w.startSession s monitor).2 where
  calm := hcalm
  live := .refl _
  isOpen := isOpen_iff.mpr ⟨_, SortedMap.get?_insert_self _ _ _⟩
  sessions ha := by
    rw [sessions, sessions, hs]
    exact SortedMap.get?_insert_of_ne _ _ ha
  owned := by
    rintro key ⟨x, hx, hkey⟩
    obtain rfl := Option.some.inj ((SortedMap.get?_insert_self _ _ _).symm.trans hx)
    exact absurd hkey (SortedSet.not_mem_empty key)
  recorded hu hscope := absurd hscope (hnew hu)
  kept hu := ⟨_, hu, rfl⟩

/-- No item takes back that a session was opened. -/
theorem opened_le_carryOut (w : World) (i : Item) : w.opened ≤ (w.carryOut i).1.opened := by
  by_cases hi : ∀ token c, i = .obey token c → c.leavesNodes = true
  · exact (sessionMove_carryOut hi).opened_le
  · push Not at hi
    obtain ⟨token, c, rfl, hc⟩ := hi
    cases c with
    | addWorker | pool | dismissAgent => exact Nat.le_refl _
    | finishSession app =>
      show w.opened ≤ (w.withAgent token _).1.opened
      unfold withAgent
      split
      · exact Nat.le_refl _
      · dsimp only
        split <;> exact Nat.le_refl _
    | _ => exact absurd rfl hc

end World

/-- Whether capacity is offered at a moment under an identifier that was not issued yet. -/
def Moment.guesses (x : Moment) : Bool :=
  match x.offer? with
  | some (⟨_, some (.issued n)⟩, _) => decide (x.world.opened < n)
  | _ => false

namespace Machine

variable {rule : Conduct} {policy : Policy} {localNodes : List String} {withholds : Bool}
  {limit : Nat} {t t₀ : List Moment} {m : Machine} {w : World}

/-- Where nobody guesses, every worker of an application was registered after that was opened. -/
theorem Course.opened_of_scope (h : Course rule (World.fresh policy localNodes withholds limit) t m)
    (hguess : ∀ x ∈ t, x.guesses = false) {key : WorkerKey} {u : Worker} {n : Nat}
    (hu : m.world.pool.worker? key = some u) (hscope : key.scope = some (.issued n)) :
    n ≤ m.world.opened := by
  induction h generalizing u with
  | start => cases hu
  | ask _ _ _ ih => exact ih hguess hu
  | answer _ _ _ ih => exact ih hguess hu
  | @item t w i rest hc ih =>
    obtain ⟨hnow, hbefore⟩ := List.forall_mem_cons.mp hguess
    have hopened : w.opened ≤ (w.carryOut i).1.opened := w.opened_le_carryOut i
    have hold {v : Worker} (hv : w.pool.worker? key = some v) :
        n ≤ (w.carryOut i).1.opened := Nat.le_trans (ih hbefore hv) hopened
    obtain ⟨l, hl⟩ := hc.run
    have hcovers : Covers w.schedule w.pool := Run.covers (m := ⟨w, i :: rest⟩) hl
    have hu : (w.carryOut i).1.pool.worker? key = some u := hu
    show n ≤ (w.carryOut i).1.opened
    rcases World.keepsBooks_or_offers hcovers.sound hcovers.unheld (hc.calm rfl) i with
      hk | ⟨k, offered, adaptor, ho, hp⟩
    · obtain ⟨v, hv, -⟩ := hk key u hu
      exact hold hv
    · by_cases hkey : key = k
      · -- the worker is offered now
        subst hkey
        obtain ⟨name, _⟩ := key
        dsimp only at hscope
        subst hscope
        unfold Moment.guesses at hnow
        rw [ho] at hnow
        exact Nat.le_trans (Nat.le_of_not_lt (of_decide_eq_false hnow)) hopened
      · rw [hp, Pool.worker?_add_of_ne _ _ _ hkey] at hu
        exact hold hu

/-- In every state of a grid with an agent, running a task returns, if nobody answers meanwhile.
It is refused exactly if a datum has no source after those that come before it, and then because of
the first such datum, and the application is called off. -/
theorem Course.runsTask
    (h : Course rule (World.fresh policy localNodes withholds limit) t₀ ⟨w, []⟩)
    (hguess : ∀ x ∈ t₀, x.guesses = false) (hagent : w.agent.isSome = true) (token : Nat)
    (r : TaskRequest) (monitor : Monitor) :
    ∃ t w', (asked w token (.runTask r monitor)).Returns t w' ∧
      ((∃ f, w'.log.head? = some (.replied token (.refused f))) ↔
        ∃ l₁ q l₂, r.remoteData = l₁ ++ q :: l₂ ∧ q.Unsourced w.catalog l₁) ∧
      w.Outcome (.issued (w.opened + 1)) token
        (RemoteData.firstUnsourced? w.catalog [] r.remoteData) w' := by
  obtain ⟨s, hs⟩ := Option.isSome_iff_exists.mp hagent
  have hstart := World.preparing_startSession hs (h.calm rfl) monitor fun hu hscope =>
    absurd (h.opened_of_scope hguess hu hscope) (Nat.not_succ_le_self _)
  obtain ⟨v, hv, hcatalog, hgo⟩ := hstart.exists_offered token r.resources r.remoteData
    r.submission monitor
  have hknown : w.catalog.RegistersAlso [] v.catalog := fun n => by
    rw [hcatalog]
    simp [World.startSession]
  obtain ⟨t, w', hc, hout⟩ := hv.exists_outcome hknown token r.remoteData r.submission monitor
  obtain ⟨t', hc'⟩ := hgo t w' hc
  have hobey : w.carryOut (.obey token (.runTask r monitor)) =
      ((w.startSession s monitor).2, [.prepare ⟨token, .issued (w.opened + 1), r.resources,
        r.remoteData, r.submission, monitor⟩]) := by
    show w.withAgent token _ = _
    rw [World.withAgent, hs]
    rfl
  refine ⟨_, w', (World.Completes.single_of_eq hobey hc').advance [], ?_, hout⟩
  have hsome : (RemoteData.firstUnsourced? w.catalog [] r.remoteData).isSome = true ↔ _ :=
    RemoteData.isSome_firstUnsourced?_iff
  simp only [List.nil_append] at hsome
  rw [← hsome]
  unfold World.Outcome at hout
  cases hfirst : RemoteData.firstUnsourced? w.catalog [] r.remoteData with
  | some q =>
    rw [hfirst] at hout
    exact iff_of_true ⟨_, hout.2⟩ rfl
  | none =>
    rw [hfirst] at hout
    refine iff_of_false (fun hf => ?_) Bool.false_ne_true
    obtain ⟨f, hf⟩ := hf
    have he := hout.symm.trans hf
    cases he

/-! ### A datum without a source -/

/-- An action waits for a worker. -/
def biding : Machine :=
  asked (.fresh .fifo [] false 8) 0 (.submit (.single (.cpus 1) "h") .silent)

/-- A task is to run on a node of its own.  One of its data is taken from a host that joins the
pool, the next one is known by the name of the first, and the last one by a name that nobody
knows. -/
def illFated : TaskRequest where
  submission := .single (.cpus 1) "h"
  resources := [{ name := "n", description := .cpus 1 }]
  remoteData := [⟨"d", [.location (.ownFile "p" "/d") (some { name := "p" })]⟩,
    ⟨"e", [.localAlias "d"]⟩, ⟨"f", [.localAlias "g"]⟩]

/-- The task is to run. -/
def misfiring : Machine := asked (biding.advance 8).world 1 (.runTask illFated .silent)

theorem course_biding :
    Course (.lively fun _ => True) (.fresh .fifo [] false 8) (moments 8 biding ++ [])
      ⟨(biding.advance 8).world, []⟩ :=
  Course.start.call 0 8 trivial (by decide +kernel)

/-- The last datum has no source.  Its node leaves as soon as the action that waited has ended,
which was bound to it, and the host of the first datum stays. -/
theorem runsTask_misfiring :
    let w := (biding.advance 8).world
    let w₁ := (misfiring.advance 28).world
    (w₁.pool.workers.entries.map fun e => (e.1, e.2.removing, e.2.bound)) =
        [(.within "n" (.issued 1), true, [1]), (.permanent "p", false, [])] ∧
      ∃ t w', (asked w 1 (.runTask illFated .silent)).Returns t w' ∧
        w'.log.head? = some (.replied 1 (.refused (.noDataSources "f"))) ∧
        w.CalledOff (.issued 1) w' := by
  have hfirst : RemoteData.firstUnsourced? (biding.advance 8).world.catalog []
      illFated.remoteData = some ⟨"f", [.localAlias "g"]⟩ := by decide +kernel
  have hopened : (biding.advance 8).world.opened = 0 := by decide +kernel
  obtain ⟨t, w', hreturns, -, hout⟩ := Course.runsTask course_biding (by decide +kernel)
    (by decide +kernel) 1 illFated .silent
  rw [hfirst, hopened] at hout
  exact ⟨by decide +kernel, t, w', hreturns, hout.2, hout.1⟩

end Machine

end TaskGrid
