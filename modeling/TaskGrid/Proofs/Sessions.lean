import TaskGrid.Proofs.Announcements

/-!
# What items do to the sessions of applications

A session is opened for an application that was never there before, takes nodes in one by one, and
is closed by one kind of item, which leads to the release of the nodes that it took in.  Every item
does one of these things or nothing (`World.sessionMove_carryOut`), unless somebody closes sessions
behind the agent's back.

* `World.SessionMove`: the four things that can happen to the sessions.
* `World.SessionMove.isOpen`, `World.SessionMove.isOpen_back`: what is open before and after.
* `World.SessionMove.records_or`: a node stays recorded until it is to be released.
-/

namespace TaskGrid

/-- Whether a command leaves the nodes of applications to the agent. -/
def Command.leavesNodes : Command → Bool
  | .addWorker key _ _ => key.scope.isNone
  | .pool _ | .finishSession _ | .dismissAgent => false
  | _ => true

/-! ## Sessions -/

namespace Sessions

variable {s s' : Sessions} {app : ApplicationId} {key : WorkerKey} {nodes : List WorkerKey}

theorem isOpen_iff : s.isOpen app = true ↔ ∃ x, s.live.get? app = some x :=
  Option.isSome_iff_exists

theorem addNode_eq_ok (h : s.addNode app key = .ok s') : ∃ x, s.live.get? app = some x ∧
    s'.live = s.live.insert app { x with nodes := x.nodes.insert key } := by
  unfold addNode at h
  split at h
  · next x hx =>
    cases h
    exact ⟨x, hx, rfl⟩
  · cases h

theorem finish?_eq_some (h : s.finish? app = some (nodes, s')) :
    ∃ x, s.live.get? app = some x ∧ nodes = x.nodes.toList ∧ s'.live = s.live.erase app := by
  obtain ⟨x, hx, he⟩ := Option.map_eq_some_iff.mp h
  cases he
  exact ⟨x, hx, rfl, rfl⟩

theorem keyFor_eq_ok {name : String} (h : s.keyFor name (some app) = .ok key) :
    s.isOpen app = true ∧ key = .within name app := by
  unfold keyFor ensure at h
  dsimp only at h
  split at h
  · next ho =>
    cases h
    exact ⟨ho, rfl⟩
  · cases h

end Sessions

open Sessions (isOpen_iff addNode_eq_ok finish?_eq_some)

namespace World

variable {w w' : World} {i : Item} {app : ApplicationId} {key : WorkerKey}

/-- A key is recorded in the open session of an application. -/
def Records (w : World) (app : ApplicationId) (key : WorkerKey) : Prop :=
  ∃ x, w.sessions.live.get? app = some x ∧ key ∈ x.nodes

/-- Two worlds with the same sessions. -/
structure SameSessions (w w' : World) : Prop where
  /-- The same sessions are open. -/
  agent : w'.agent = w.agent
  /-- As many were opened. -/
  opened : w'.opened = w.opened

theorem SameSessions.refl (w : World) : w.SameSessions w := ⟨rfl, rfl⟩

theorem SameSessions.trans {w'' : World} (h : w.SameSessions w') (h' : w'.SameSessions w'') :
    w.SameSessions w'' := ⟨h'.agent.trans h.agent, h'.opened.trans h.opened⟩

theorem SameSessions.sessions (h : w.SameSessions w') : w'.sessions = w.sessions := by
  rw [World.sessions, h.agent, World.sessions]

theorem sameSessions_noteAll (w : World) (l : List Notice) : w.SameSessions (w.noteAll l) := by
  rw [noteAll_eq]
  exact ⟨rfl, rfl⟩

/-- What an item does to the sessions. -/
inductive SessionMove (w : World) (i : Item) (e : Effect) : Prop where
  /-- Nothing. -/
  | same (same : w.SameSessions e.1)
  /-- One is opened. -/
  | opens {monitor : Monitor}
    (sessions : e.1.sessions = w.sessions.start (.issued (w.opened + 1)) monitor)
    (opened : e.1.opened = w.opened + 1)
  /-- A node is recorded in one. -/
  | records {app : ApplicationId} {key : WorkerKey}
    (node : w.sessions.addNode app key = .ok e.1.sessions) (opened : e.1.opened = w.opened)
  /-- One is closed, and its nodes are to be released. -/
  | closes {app : ApplicationId} {nodes : List WorkerKey} (item : i = .endSession app)
    (finish : w.sessions.finish? app = some (nodes, e.1.sessions)) (opened : e.1.opened = w.opened)
    (items : e.2 = nodes.map .releaseNode)

/-- An application was opened at some time. -/
def Issued (w : World) (app : ApplicationId) : Prop := ∃ n ≤ w.opened, app = .issued n

/-- The open sessions are some of those that were opened. -/
def SessionsIssued (w : World) : Prop :=
  ∀ app, w.sessions.isOpen app = true → w.Issued app

namespace SessionMove

variable {e : Effect}

theorem opened_le (h : w.SessionMove i e) : w.opened ≤ e.1.opened := by
  cases h with
  | same same => exact Nat.le_of_eq same.opened.symm
  | opens _ opened => exact opened ▸ Nat.le_succ _
  | records _ opened => exact Nat.le_of_eq opened.symm
  | closes _ _ opened _ => exact Nat.le_of_eq opened.symm

/-- A session that is open was open, or it is the one that is opened. -/
theorem isOpen_back (h : w.SessionMove i e) (ha : e.1.sessions.isOpen app = true) :
    w.sessions.isOpen app = true ∨ app = .issued (w.opened + 1) ∧ e.1.opened = w.opened + 1 := by
  cases h with
  | same same => exact .inl (same.sessions ▸ ha)
  | opens sessions opened =>
    by_cases happ : app = .issued (w.opened + 1)
    · exact .inr ⟨happ, opened⟩
    · rw [sessions, isOpen_iff, Sessions.start, SortedMap.get?_insert_of_ne _ _ happ] at ha
      exact .inl (isOpen_iff.mpr ha)
  | @records app' key node _ =>
    obtain ⟨x, hx, hlive⟩ := addNode_eq_ok node
    by_cases happ : app = app'
    · exact .inl (isOpen_iff.mpr ⟨x, happ ▸ hx⟩)
    · rw [isOpen_iff, hlive, SortedMap.get?_insert_of_ne _ _ happ] at ha
      exact .inl (isOpen_iff.mpr ha)
  | @closes app' nodes _ finish _ _ =>
    obtain ⟨x, -, -, hlive⟩ := finish?_eq_some finish
    rw [isOpen_iff, hlive, SortedMap.get?_erase] at ha
    split at ha
    · obtain ⟨y, hy⟩ := ha
      cases hy
    · exact .inl (isOpen_iff.mpr ha)

theorem issued (h : w.SessionMove i e) (ha : w.Issued app) : e.1.Issued app := by
  obtain ⟨n, hn, rfl⟩ := ha
  exact ⟨n, Nat.le_trans hn h.opened_le, rfl⟩

theorem sessionsIssued (h : w.SessionMove i e) (hw : w.SessionsIssued) : e.1.SessionsIssued := by
  intro app ha
  rcases h.isOpen_back ha with ha | ⟨rfl, hopened⟩
  · exact h.issued (hw app ha)
  · exact ⟨w.opened + 1, Nat.le_of_eq hopened.symm, rfl⟩

/-- A session stays open until it is closed. -/
theorem isOpen (h : w.SessionMove i e) (ha : w.sessions.isOpen app = true) :
    e.1.sessions.isOpen app = true ∨ i = .endSession app := by
  cases h with
  | same same => exact .inl (same.sessions ▸ ha)
  | opens sessions _ =>
    rw [sessions, isOpen_iff, Sessions.start, SortedMap.get?_insert]
    split
    · exact .inl ⟨_, rfl⟩
    · exact .inl (isOpen_iff.mp ha)
  | records node _ =>
    obtain ⟨x, -, hlive⟩ := addNode_eq_ok node
    rw [isOpen_iff, hlive, SortedMap.get?_insert]
    split
    · exact .inl ⟨_, rfl⟩
    · exact .inl (isOpen_iff.mp ha)
  | @closes app' nodes item finish _ _ =>
    obtain ⟨x, -, -, hlive⟩ := finish?_eq_some finish
    by_cases happ : app = app'
    · exact .inr (happ ▸ item)
    · rw [isOpen_iff, hlive, SortedMap.get?_erase_of_ne _ happ]
      exact .inl (isOpen_iff.mp ha)

/-- A node stays recorded until the session is closed, and is then to be released. -/
theorem records_or (h : w.SessionMove i e) (hw : w.SessionsIssued) (hr : w.Records app key) :
    e.1.Records app key ∨ .releaseNode key ∈ e.2 := by
  obtain ⟨x, hx, hkey⟩ := hr
  unfold Records
  cases h with
  | same same => exact .inl ⟨x, same.sessions ▸ hx, hkey⟩
  | opens sessions _ =>
    -- the new session takes no other's place
    have hne : app ≠ .issued (w.opened + 1) := by
      rintro rfl
      obtain ⟨n, hn, he⟩ := hw _ (isOpen_iff.mpr ⟨x, hx⟩)
      cases he
      exact absurd hn (Nat.not_succ_le_self _)
    rw [sessions, Sessions.start, SortedMap.get?_insert_of_ne _ _ hne]
    exact .inl ⟨x, hx, hkey⟩
  | @records app' key' node _ =>
    obtain ⟨y, hy, hlive⟩ := addNode_eq_ok node
    rw [hlive, SortedMap.get?_insert]
    split
    · next h =>
      obtain rfl : y = x := Option.some.inj (hy.symm.trans (h ▸ hx))
      exact .inl ⟨_, rfl, SortedSet.mem_insert.mpr (.inr hkey)⟩
    · exact .inl ⟨x, hx, hkey⟩
  | @closes app' nodes _ finish _ items =>
    obtain ⟨y, hy, rfl, hlive⟩ := finish?_eq_some finish
    by_cases happ : app = app'
    · obtain rfl : y = x := Option.some.inj (hy.symm.trans (happ ▸ hx))
      exact .inr (items ▸ List.mem_map_of_mem hkey)
    · rw [hlive, SortedMap.get?_erase_of_ne _ happ]
      exact .inl ⟨x, hx, hkey⟩

end SessionMove

/-! ### What items do to sessions -/

theorem sameSessions_report (w : World) (a : List Assignment) (c : List (WorkerKey × Capacity)) :
    w.SameSessions (w.report a c) := by
  unfold report
  split
  · exact .refl w
  · dsimp only
    split
    · exact sameSessions_noteAll w _
    · exact (sameSessions_noteAll w _).trans (sameSessions_noteAll _ _)

theorem sameSessions_tellRemoved (w : World) (r : RemovedWorker) (last : Bool) :
    w.SameSessions (w.tellRemoved r last) := by
  have hheard : w.SameSessions
      (if (w.listener.any fun l => !l.quiet) = true then w.note (.removed r) else w) := by
    split <;> exact ⟨rfl, rfl⟩
  unfold tellRemoved
  dsimp only
  split
  · exact hheard.trans (sameSessions_noteAll _ _)
  · exact hheard

theorem sameSessions_deliver (w : World) (m : Monitor) (e : Event) :
    w.SameSessions (w.deliver m e).1 := by
  unfold deliver
  dsimp only
  split <;> try exact ⟨rfl, rfl⟩
  split <;> exact ⟨rfl, rfl⟩

theorem sameSessions_rescue (w : World) (b : RescueBatch) : w.SameSessions (w.rescue b).1 := by
  have hpublish (w : World) (channel : Option Nat) (r : RescueReport) :
      w.SameSessions (w.publish channel r) := by
    unfold publish
    split
    · exact .refl w
    · split <;> exact ⟨rfl, rfl⟩
  unfold rescue
  split
  · unfold endBatch
    split
    · exact .refl w
    · dsimp only
      split
      · exact hpublish _ _ _
      · exact (show w.SameSessions (w.note _) from ⟨rfl, rfl⟩).trans (hpublish _ _ _)
  · dsimp only
    split <;> exact ⟨rfl, rfl⟩

theorem sameSessions_removeWorker (w : World) (key : WorkerKey) (hook : Option RemovalHook) :
    w.SameSessions (w.removeWorker key hook).2.1 := by
  unfold removeWorker
  cases w.pool.requestRemoval? w.catalog key hook with
  | none => exact .refl w
  | some r => cases r <;> exact ⟨rfl, rfl⟩

theorem sameSessions_answerRemoval (w : World) (token : Nat) (key : WorkerKey)
    (hook : Option RemovalHook) : w.SameSessions (w.answerRemoval token key hook).1 := by
  have hr := sameSessions_removeWorker w key hook
  unfold answerRemoval
  generalize w.removeWorker key hook = r at hr ⊢
  obtain ⟨status, w', items⟩ := r
  cases status <;> exact hr

theorem sameSessions_loseWorker (w : World) (token : Nat) (key : WorkerKey) (byAgent : Bool) :
    w.SameSessions (w.loseWorker token key byAgent).1 := by
  unfold loseWorker
  split <;> exact ⟨rfl, rfl⟩

theorem sameSessions_reduceWorker (w : World) (token : Nat) (key : WorkerKey) (c : Capacity) :
    w.SameSessions (w.reduceWorker token key c).1 := by
  unfold reduceWorker
  split <;> exact ⟨rfl, rfl⟩

theorem sameSessions_offer (w : World) (o : Offer) (app : Option ApplicationId) (next : Resume) :
    w.SameSessions (w.offer o app next).1 := by
  unfold offer
  split
  · exact .refl w
  · dsimp only
    split <;> exact ⟨rfl, rfl⟩

theorem sameSessions_takeOver (w : World) (im : Import) : w.SameSessions (w.takeOver im).1 := by
  unfold takeOver
  split
  · dsimp only
    split <;> exact .refl w
  · dsimp only
    split
    · exact .refl w
    · split <;> exact ⟨rfl, rfl⟩
  · dsimp only
    split <;> exact ⟨rfl, rfl⟩

theorem sameSessions_endCopy (w : World) (e : Catalog.CopyEnded) (outcome : CopyOutcome) :
    w.SameSessions (w.endCopy e outcome).1 :=
  (show w.SameSessions { w with catalog := e.catalog } from ⟨rfl, rfl⟩).trans
    (sameSessions_noteAll _ _)

theorem sameSessions_obeyData {token : Nat} {c : Command} {e : Effect}
    (h : w.obeyData token c = some e) : w.SameSessions e.1 := by
  cases c <;> simp only [obeyData, Option.some.injEq, reduceCtorEq] at h
  case link | startCopy | listenToCopy =>
    subst h
    first | unfold link | unfold startCopy | unfold listenToCopy
    split <;> exact ⟨rfl, rfl⟩
  case finishCopy | failCopy =>
    subst h
    first | unfold finishCopy | unfold failCopy
    split
    · exact .refl w
    · exact sameSessions_endCopy w _ _
  case markObsolete name => split at h <;> cases h <;> exact ⟨rfl, rfl⟩
  all_goals
    subst h
    exact ⟨rfl, rfl⟩

theorem sessionMove_startSession {s : Sessions} (hs : w.agent = some s) (monitor : Monitor)
    {e : Effect} (he : e.1 = (w.startSession s monitor).2) : w.SessionMove i e := by
  have hopens : e.1.sessions = w.sessions.start (.issued (w.opened + 1)) monitor := by
    rw [he, sessions, sessions, hs]
    rfl
  exact .opens hopens (by rw [he]; rfl)

theorem sessionMove_addNode {s s' : Sessions} (hs : w.agent = some s)
    (node : s.addNode app key = .ok s') {e : Effect} (he : e.1 = { w with agent := some s' }) :
    w.SessionMove i e := by
  have hnode : w.sessions.addNode app key = .ok e.1.sessions := by
    rw [he, sessions, hs]
    exact node
  exact .records hnode (by rw [he])

theorem sessionMove_withAgent (token : Nat) {f : Sessions → Effect}
    (h : ∀ s, w.agent = some s → w.SessionMove i (f s)) :
    w.SessionMove i (w.withAgent token f) := by
  unfold withAgent
  split
  · exact .same (.refl w)
  · next s hs => exact h s hs

theorem sessionMove_withNode (token : Nat) (name : String) (app : Option ApplicationId)
    {f : WorkerKey → Effect} (h : ∀ key, w.SameSessions (f key).1) :
    w.SessionMove i (w.withNode token name app f) :=
  sessionMove_withAgent token fun s _ => by
    split
    · exact .same (.refl w)
    · exact .same (h _)

theorem sessionMove_obeyAgent {token : Nat} {c : Command} {e : Effect}
    (hc : c.leavesNodes = true) (h : w.obeyAgent token c = some e) : w.SessionMove i e := by
  cases c <;> simp only [obeyAgent, Option.some.injEq, reduceCtorEq] at h <;> subst h
  case finishSession app => cases hc
  case offerNode o app =>
    exact sessionMove_withAgent token fun s _ => .same (sameSessions_offer w o app _)
  case reduceNode r =>
    exact sessionMove_withNode token _ _ fun key => sameSessions_reduceWorker w token key _
  case removeNode r =>
    exact sessionMove_withNode token _ _ fun key => sameSessions_answerRemoval w token key _
  case loseNode r =>
    exact sessionMove_withNode token _ _ fun key => sameSessions_loseWorker w token key true
  case runTask r monitor =>
    exact sessionMove_withAgent token fun s hs => sessionMove_startSession hs monitor rfl
  case startSession monitor =>
    exact sessionMove_withAgent token fun s hs => sessionMove_startSession hs monitor rfl
  case addSessionNode app key =>
    refine sessionMove_withAgent token fun s hs => ?_
    split
    · exact .same (.refl w)
    · next node => exact sessionMove_addNode hs node rfl
  case dispatchRescues transfer deferred reports =>
    refine sessionMove_withAgent token fun s _ => .same ?_
    unfold setDispatcher changed
    split <;> exact ⟨rfl, rfl⟩
  case importData | noteRescues =>
    exact sessionMove_withAgent token fun s _ => .same ⟨rfl, rfl⟩
  case finishApplication | tellSession =>
    refine sessionMove_withAgent token fun s _ => .same ?_
    split <;> exact ⟨rfl, rfl⟩

/-- A command that does not speak to the agent leaves the sessions as they are. -/
theorem sameSessions_obey {token : Nat} {c : Command} (hc : c.surface ≠ .agent) :
    w.SameSessions (w.obey token c).1 := by
  have hdata {c : Command} : w.SameSessions ((w.obeyData token c).getD (w.changed token)).1 := by
    cases he : w.obeyData token c with
    | none => exact .refl w
    | some e => exact sameSessions_obeyData he
  cases c
  case addWorker | submit | pass | pool | setListener | closeMailbox => exact ⟨rfl, rfl⟩
  case reduceWorker key c => exact sameSessions_reduceWorker w token key c
  case removeWorker key hook => exact sameSessions_answerRemoval w token key hook
  case loseWorker key => exact sameSessions_loseWorker w token key false
  case markRunning | complete | fail | cancel | collectMail =>
    dsimp only [obey]
    first | unfold markRunning | unfold complete | unfold fail | unfold cancel | skip
    split <;> first | exact ⟨rfl, rfl⟩ | split <;> exact ⟨rfl, rfl⟩
  all_goals first
    | exact absurd rfl hc
    | dsimp only [obey, obeyAgent]; rw [Option.or_none]; exact hdata

theorem sessionMove_obey {token : Nat} {c : Command} (hc : c.leavesNodes = true) :
    w.SessionMove i (w.obey token c) := by
  by_cases hs : c.surface = .agent
  · have hrest : w.SessionMove i ((w.obeyAgent token c).getD (w.changed token)) := by
      cases he : w.obeyAgent token c with
      | none => exact .same (.refl w)
      | some e => exact sessionMove_obeyAgent hc he
    cases c
    case dismissAgent => cases hc
    case runDeferred | dropReports => exact .same ⟨rfl, rfl⟩
    case dispatch | collectReports =>
      refine .same ?_
      dsimp only [obey]
      split <;> exact ⟨rfl, rfl⟩
    all_goals first | exact hrest | cases hs
  · exact .same (sameSessions_obey hs)

/-- An item that is no command opens no session. -/
theorem sessionMove_item (hi : ∀ token c, i ≠ .obey token c) :
    w.SessionMove i (w.carryOut i) ∧ (w.carryOut i).1.opened = w.opened := by
  have hsame (h : w.SameSessions (w.carryOut i).1) :
      w.SessionMove i (w.carryOut i) ∧ (w.carryOut i).1.opened = w.opened := ⟨.same h, h.opened⟩
  cases i with
  | obey token c => exact absurd rfl (hi token c)
  | note | prompt | addReplica | takenOver | failBound | pass => exact hsame ⟨rfl, rfl⟩
  | deliver m e => exact hsame (sameSessions_deliver w m e)
  | report a c => exact hsame (sameSessions_report w a c)
  | tellCapacity key free => exact hsame (sameSessions_report w _ _)
  | tellRemoved r last => exact hsame (sameSessions_tellRemoved w r last)
  | tellHook hook r =>
    refine hsame ?_
    dsimp only [carryOut, tellHook]
    split
    · exact ⟨rfl, rfl⟩
    · split <;> exact ⟨rfl, rfl⟩
  | retire | wake | runDeferred | closeSession =>
    refine hsame ?_
    dsimp only [carryOut, wake]
    first | unfold retire | unfold runDeferred | unfold closeSession | skip
    split <;> exact ⟨rfl, rfl⟩
  | endSession app =>
    dsimp only [carryOut]
    unfold endSession
    split
    · exact ⟨.same (.refl w), rfl⟩
    · next nodes s hs =>
      obtain ⟨s', hs', hfinish⟩ := Option.bind_eq_some_iff.mp hs
      refine ⟨.closes rfl ?_ rfl rfl, rfl⟩
      rw [sessions, hs']
      exact hfinish
  | releaseNode key => exact hsame (sameSessions_removeWorker w key _)
  | handOver orders =>
    refine hsame ?_
    dsimp only [carryOut]
    unfold handOver
    split
    · exact .refl w
    · exact ⟨rfl, rfl⟩
    · split
      · exact .refl w
      · dsimp only
        split <;> exact ⟨rfl, rfl⟩
  | rescue b => exact hsame (sameSessions_rescue w b)
  | joinNode app v next =>
    dsimp only [carryOut]
    unfold joinNode
    split
    · exact ⟨.same (.refl w), rfl⟩
    · next s node =>
      -- a node can be recorded only if there is an agent
      cases hs : w.agent with
      | none =>
        obtain ⟨x, hx, -⟩ := addNode_eq_ok node
        rw [sessions, hs] at hx
        cases hx
      | some s' =>
        rw [sessions, hs] at node
        exact ⟨sessionMove_addNode hs node rfl, rfl⟩
  | takeOver im => exact hsame (sameSessions_takeOver w im)
  | prepare p =>
    refine hsame ?_
    dsimp only [carryOut]
    unfold prepare
    split
    · dsimp only
      split
      · exact .refl w
      · exact sameSessions_offer w _ _ _
    · exact .refl w
    · exact ⟨rfl, rfl⟩

/-- What an item does to the sessions. -/
theorem sessionMove_carryOut (hi : ∀ token c, i = .obey token c → c.leavesNodes = true) :
    w.SessionMove i (w.carryOut i) := by
  by_cases hc : ∃ token c, i = .obey token c
  · obtain ⟨token, c, rfl⟩ := hc
    exact sessionMove_obey (hi token c rfl)
  · exact (sessionMove_item fun token c he => hc ⟨token, c, he⟩).1

/-! ### Main actions that have ended -/

theorem ended_noteAll (w : World) (l : List Notice) : (w.noteAll l).ended = w.ended := by
  rw [noteAll_eq]

theorem ended_report (w : World) (a : List Assignment) (c : List (WorkerKey × Capacity)) :
    (w.report a c).ended = w.ended := by
  unfold report
  split
  · rfl
  · dsimp only
    split <;> simp only [ended_noteAll]

theorem ended_tellRemoved (w : World) (r : RemovedWorker) (last : Bool) :
    (w.tellRemoved r last).ended = w.ended := by
  have hremoved : World.ended (if (w.listener.any fun l => !l.quiet) = true then
      w.note (.removed r) else w) = w.ended := by
    split <;> rfl
  unfold tellRemoved
  dsimp only
  split
  · exact (ended_noteAll _ _).trans hremoved
  · exact hremoved

theorem ended_rescue (w : World) (b : RescueBatch) : (w.rescue b).1.ended = w.ended := by
  have hpublish (w : World) (channel : Option Nat) (r : RescueReport) :
      (w.publish channel r).ended = w.ended := by
    unfold publish
    split
    · rfl
    · split <;> rfl
  unfold rescue endBatch
  split
  · split
    · rfl
    · dsimp only
      split <;> exact hpublish _ _ _
  · dsimp only
    split <;> rfl

theorem ended_removeWorker (w : World) (key : WorkerKey) (hook : Option RemovalHook) :
    (w.removeWorker key hook).2.1.ended = w.ended := by
  unfold removeWorker
  split <;> rfl

theorem ended_offer (w : World) (o : Offer) (app : Option ApplicationId) (next : Resume) :
    (w.offer o app next).1.ended = w.ended := by
  unfold offer
  split
  · rfl
  · dsimp only
    split <;> rfl

theorem ended_withAgent (token : Nat) {f : Sessions → Effect} (h : ∀ s, (f s).1.ended = w.ended) :
    (w.withAgent token f).1.ended = w.ended := by
  unfold withAgent
  split
  · rfl
  · exact h _

theorem ended_withNode (token : Nat) (name : String) (app : Option ApplicationId)
    {f : WorkerKey → Effect} (h : ∀ key, (f key).1.ended = w.ended) :
    (w.withNode token name app f).1.ended = w.ended :=
  ended_withAgent token fun s => by
    split
    · rfl
    · exact h _

theorem ended_answerRemoval (w : World) (token : Nat) (key : WorkerKey)
    (hook : Option RemovalHook) : (w.answerRemoval token key hook).1.ended = w.ended := by
  have hr := ended_removeWorker w key hook
  unfold answerRemoval
  generalize w.removeWorker key hook = r at hr ⊢
  obtain ⟨status, w', items⟩ := r
  cases status <;> exact hr

theorem ended_loseWorker (w : World) (token : Nat) (key : WorkerKey) (byAgent : Bool) :
    (w.loseWorker token key byAgent).1.ended = w.ended := by
  unfold loseWorker
  split <;> rfl

theorem ended_reduceWorker (w : World) (token : Nat) (key : WorkerKey) (c : Capacity) :
    (w.reduceWorker token key c).1.ended = w.ended := by
  unfold reduceWorker
  split <;> rfl

theorem ended_endCopy (w : World) (e : Catalog.CopyEnded) (outcome : CopyOutcome) :
    (w.endCopy e outcome).1.ended = w.ended := ended_noteAll _ _

theorem ended_obey (w : World) (token : Nat) (c : Command) :
    (w.obey token c).1.ended = w.ended := by
  cases c
  case reduceWorker key c => exact ended_reduceWorker w token key c
  case removeWorker key hook => exact ended_answerRemoval w token key hook
  case loseWorker key => exact ended_loseWorker w token key false
  case markRunning | complete | fail | cancel | dispatch | collectReports | collectMail =>
    dsimp only [obey]
    first | unfold markRunning | unfold complete | unfold fail | unfold cancel | skip
    split <;> first | rfl | split <;> rfl
  case markObsolete name =>
    dsimp only [obey, obeyData]
    cases w.catalog.markObsolete? name <;> rfl
  case link | startCopy | listenToCopy =>
    dsimp only [obey, obeyData, Option.or, Option.getD]
    first | unfold link | unfold startCopy | unfold listenToCopy
    split <;> rfl
  case finishCopy id data =>
    show (w.finishCopy token id data).1.ended = w.ended
    unfold finishCopy
    split
    · rfl
    · exact ended_endCopy w _ _
  case failCopy id data reason =>
    show (w.failCopy token id data reason).1.ended = w.ended
    unfold failCopy
    split
    · rfl
    · exact ended_endCopy w _ _
  case offerNode o app => exact ended_withAgent token fun _ => ended_offer w o app _
  case reduceNode r => exact ended_withNode token _ _ fun key => ended_reduceWorker w token key _
  case removeNode r => exact ended_withNode token _ _ fun key => ended_answerRemoval w token key _
  case loseNode r => exact ended_withNode token _ _ fun key => ended_loseWorker w token key true
  case importData | runTask | noteRescues | startSession =>
    exact ended_withAgent token fun _ => rfl
  case dispatchRescues transfer deferred reports =>
    refine ended_withAgent token fun _ => ?_
    unfold setDispatcher changed
    split <;> rfl
  case finishApplication | addSessionNode | finishSession | tellSession =>
    refine ended_withAgent token fun _ => ?_
    split <;> rfl
  all_goals rfl

/-- Only the end of a main action is kept in mind as such. -/
theorem ended_carryOut (w : World) {i : Item} (hi : ∀ app, i ≠ .closeSession app) :
    (w.carryOut i).1.ended = w.ended := by
  cases i with
  | closeSession app => exact absurd rfl (hi app)
  | obey token c => exact ended_obey w token c
  | report a c => exact ended_report w a c
  | tellCapacity key free => exact ended_report w _ _
  | tellRemoved r last => exact ended_tellRemoved w r last
  | rescue b => exact ended_rescue w b
  | releaseNode key => exact ended_removeWorker w key _
  | deliver | tellHook | retire | wake | endSession | runDeferred | joinNode | handOver
  | takeOver =>
    dsimp only [carryOut]
    first
      | unfold deliver | unfold tellHook | unfold retire | unfold wake | unfold endSession
      | unfold runDeferred | unfold joinNode | unfold handOver | unfold takeOver
    repeat' first | rfl | dsimp only | split
  | prepare p =>
    dsimp only [carryOut]
    unfold prepare
    split
    · dsimp only
      split
      · rfl
      · exact ended_offer w _ _ _
    · rfl
    · rfl
  | note | prompt | failBound | pass | addReplica | takenOver => rfl

/-- A main action is kept in mind as ended from the moment at which its session is to close. -/
theorem mem_ended_carryOut :
    app ∈ (w.carryOut i).1.ended ↔ app ∈ w.ended ∨ i = .closeSession app := by
  by_cases hi : ∀ app, i ≠ .closeSession app
  · rw [w.ended_carryOut hi, or_iff_left (hi app)]
  · push Not at hi
    obtain ⟨app', rfl⟩ := hi
    rw [Item.closeSession.injEq]
    show app ∈ (w.closeSession app').1.ended ↔ _
    unfold closeSession
    split
    · next hmem => exact ⟨.inl, fun h => h.elim id fun h => h ▸ hmem⟩
    · rw [List.mem_cons, eq_comm, or_comm]

/-- No session is open. -/
def Sessionless (w : World) : Prop := ∀ app, w.sessions.isOpen app = false

/-- Without commands to the agent no session is opened. -/
theorem sessionless_carryOut (h : w.Sessionless)
    (hi : ∀ token c, i = .obey token c → c.surface ≠ .agent) : (w.carryOut i).1.Sessionless := by
  intro app
  by_cases hc : ∃ token c, i = .obey token c
  · obtain ⟨token, c, rfl⟩ := hc
    have hsame : w.SameSessions (w.carryOut (.obey token c)).1 := sameSessions_obey (hi token c rfl)
    rw [hsame.sessions]
    exact h app
  · obtain ⟨hmove, hopened⟩ := sessionMove_item fun token c he => hc ⟨token, c, he⟩
    rw [Bool.eq_false_iff]
    intro hopen
    rcases hmove.isOpen_back hopen with hbefore | ⟨-, hnew⟩
    · rw [h app] at hbefore
      cases hbefore
    · exact absurd (hopened.symm.trans hnew) (Nat.ne_of_lt (Nat.lt_succ_self _))

end World

end TaskGrid
