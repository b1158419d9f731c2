import Mathlib.Data.List.Nodup
import PS4Droid.Np.Established

/-!
# The reported status

The status of a connection follows its state, and closing a connection by its status stages one
`DEAD`, in every run without an activation of an account and without a handshake on a dead
connection.
-/

namespace PS4Droid.Np

/-- No account is activated, and a dead connection is not brought back. -/
def NoRevival (s : State) (_held : List Task) (input : Input) : Task → Prop
  | .activateConnectionA ctxId accountId platformType =>
    ∀ ctx, activationContextA s input ctxId accountId platformType ≠ some (true, ctx)
  | .startHandshakeInitiator id | .establishConnection id _ =>
    ∀ c, s.connections id = some c → c.deadFired = false
  | _ => True

structure ConnectionInfo.Reported (c : ConnectionInfo) : Prop where
  status : c.status = statusFromState c.state
  dead : c.deadFired = true → c.state = .inactive

namespace ConnectionInfo.Reported

variable {c c' : ConnectionInfo}

theorem of_eq (h : c.Reported) (hstatus : c'.status = c.status) (hstate : c'.state = c.state)
    (hdead : c'.deadFired = c.deadFired) : c'.Reported where
  status := by rw [hstatus, hstate, h.status]
  dead := by
    rw [hstate, hdead]
    exact h.dead

theorem of_alive (hstatus : c'.status = statusFromState c'.state) (hdead : c'.deadFired = false) :
    c'.Reported where
  status := hstatus
  dead h := by
    rw [hdead] at h
    cases h

end ConnectionInfo.Reported

variable {input : Input} {task : Task} {tasks : List Task}

theorem Change.reported {s : State} {id : ℤ} {c c' : ConnectionInfo}
    (h : Change s input id task c c' tasks) (hc : c.Reported)
    (hstart : task = .startHandshakeInitiator id → c.deadFired = false)
    (hestablish : ∀ hint, task = .establishConnection id hint → c.deadFired = false) :
    c'.Reported := by
  cases h with
  | offer _ _ hdead =>
    rw [ConnectionInfo.offered, ConnectionInfo.keepTimeout_eq]
    split
    · exact .of_alive rfl hdead
    · exact hc.of_eq rfl rfl rfl
  | accept _ _ hdead =>
    rw [ConnectionInfo.accepted]
    split
    · exact .of_alive rfl hdead
    · exact hc.of_eq rfl rfl rfl
  | check _ _ hdead =>
    rw [ConnectionInfo.checked]
    split
    · exact .of_alive rfl hdead
    · exact hc.of_eq rfl rfl rfl
  | request =>
    rw [ConnectionInfo.requested, ConnectionInfo.keepTimeout_eq]
    split <;> exact hc.of_eq rfl rfl rfl
  | step =>
    rw [ConnectionInfo.stepFired]
    split <;> exact hc.of_eq rfl rfl rfl
  | close => exact ⟨rfl, fun _ => rfl⟩
  | establish =>
    rw [ConnectionInfo.establish, ConnectionInfo.enterEstablished]
    split
    · exact hc.of_eq rfl rfl rfl
    · exact .of_alive rfl (hestablish _ rfl)
  | start =>
    rw [ConnectionInfo.startHandshake, ConnectionInfo.keepTimeout_eq]
    exact .of_alive rfl (hstart rfl)
  | _ => exact hc.of_eq rfl rfl rfl

theorem Creation.reported {s : State} {held : List Task} {id : ℤ}
    {c : ConnectionInfo} (h : Creation s input id task c tasks)
    (hok : NoRevival s held input task) : c.Reported := by
  cases h with
  | activate => exact .of_alive rfl rfl
  | activateA hagreed => exact absurd hagreed (hok _)
  | answer =>
    rw [ConnectionInfo.requested, ConnectionInfo.keepTimeout_eq]
    exact .of_alive rfl rfl

section Runs

variable {seed : Fin 0x8000} {lastContext : Fin 9} {config : Sections.Config State Task}

theorem reported_of_reachable
    (h : signaling.Reachable NoRevival (State.initial seed lastContext) config) :
    ∀ id c, config.state.connections id = some c → c.Reported := by
  refine records_of_reachable (fun hok hbefore hc hchange => hchange.reported hc ?_ ?_)
    (fun hok hcreation => hcreation.reported hok) h
  · rintro rfl
    exact hok _ hbefore
  · rintro hint rfl
    exact hok _ hbefore

end Runs

/-! ## Closing by the status -/

instance : Nonempty Input := ⟨sampleInput⟩

section Closing

variable {s s' : State} {id : ℤ} {c : ConnectionInfo}

/-- The event that a closed connection stages. -/
def deadEvent (c : ConnectionInfo) (id : ℤ) (error : CloseError) : QueuedDispatch :=
  ⟨c.ctxId, id, .dead, some error, c.life⟩

theorem ConnectionInfo.Reported.open_of_status (h : c.Reported) (hstatus : c.status ≠ .inactive) :
    c.state ≠ .inactive ∧ c.deadFired = false := by
  have hstate : c.state ≠ .inactive := by
    intro hinactive
    exact hstatus (by rw [h.status, hinactive, statusFromState])
  refine ⟨hstate, ?_⟩
  by_contra hdead
  exact hstate (h.dead (by simpa using hdead))

/-- An open connection after `CloseConnectionAndDispatchDead` that is not interrupted. -/
def closed (s : State) (id : ℤ) (c : ConnectionInfo) (error : CloseError) : State :=
  (dispatchConnectionEvent (s.setConnection id c.close) id .dead
    (some error)).removeConnectionLocked id

variable {rest : List Task} {ctx : Context} {ids : List ℤ} {ctxId : ℤ}

theorem alone_closeConnection {error : CloseError} (hc : s.connections id = some c)
    (hopen : c.state ≠ .inactive ∧ c.deadFired = false) :
    signaling.Alone (.closeConnection id error :: rest) s s' ↔
      signaling.Alone rest (closed s id c error) s' := by
  have hsections (input : Input) : exec input (.closeConnection id error) s =
      (s.setConnection id c.close,
        [.dispatchConnectionEvent id c.life .dead (some error), .removeConnection id]) := by
    rw [exec, closeConnection, onConnection, hc]
    dsimp only
    rw [if_neg (by simp [hopen])]
  rw [Sections.Machine.alone_cons_of_exec (fun _ => trivial) hsections]
  rw [List.cons_append, Sections.Machine.alone_cons_of_exec (fun _ => trivial) fun _ => rfl]
  rw [List.nil_append, List.cons_append,
    Sections.Machine.alone_cons_of_exec (fun _ => trivial) fun _ => rfl]
  rfl

theorem dispatchConnectionEvent_contexts (event : Event) (error : Option CloseError) :
    (dispatchConnectionEvent s id event error).contexts = s.contexts := by
  rw [dispatchConnectionEvent]
  split
  · rfl
  split
  · rfl
  split
  · rw [State.stage]
    split <;> rfl
  · rfl

@[simp] theorem State.removeConnectionLocked_contexts (connId : ℤ) :
    (s.removeConnectionLocked connId).contexts = s.contexts := by
  rw [State.removeConnectionLocked]
  split <;> rfl

@[simp] theorem closed_connections (error : CloseError) :
    (closed s id c error).connections = Function.update s.connections id none := by
  rw [closed, State.removeConnectionLocked_connections, dispatchConnectionEvent_connections,
    State.setConnection_connections, Function.update_idem]

@[simp] theorem closed_contexts (error : CloseError) :
    (closed s id c error).contexts = s.contexts := by
  rw [closed, State.removeConnectionLocked_contexts, dispatchConnectionEvent_contexts]
  rfl

theorem closed_dispatchQueue (hctx : s.contexts c.ctxId = some ctx) (hactive : ctx.active = true)
    (hcallback : ctx.callback = true) (error : CloseError) :
    (closed s id c error).dispatchQueue = s.dispatchQueue ++ [deadEvent c id error] := by
  have hrecord : (s.setConnection id c.close).connections id = some c.close :=
    Function.update_self _ _ _
  have hcontext : (s.setConnection id c.close).contexts c.close.ctxId = some ctx := hctx
  rw [closed, (quiet_removeConnectionLocked id).dispatchQueue, dispatchConnectionEvent, hrecord]
  dsimp only
  rw [hcontext]
  dsimp only
  rw [if_pos hactive, State.stage, if_pos hcallback]
  rfl

theorem State.removeConnectionLocked_of_none (h : s.connections id = none) :
    s.removeConnectionLocked id = s := by
  rw [State.removeConnectionLocked, h]

theorem alone_terminateConnection (hc : s.connections id = some c)
    (hopen : c.state ≠ .inactive ∧ c.deadFired = false) (hvalid : s.isContextValid c.ctxId = true) :
    signaling.Alone [.terminateConnection c.ctxId id] s s' ↔
      s' = closed s id c .terminatedByMyself := by
  have hsections (input : Input) : exec input (.terminateConnection c.ctxId id) s =
      (s, [.closeConnection id .terminatedByMyself, .removeConnection id]) := by
    rw [exec, onConnection, hc]
    simp [hvalid]
  have hremoved : (closed s id c .terminatedByMyself).connections id = none := by simp
  rw [Sections.Machine.alone_cons_of_exec (fun _ => trivial) hsections]
  rw [List.cons_append, alone_closeConnection hc hopen]
  rw [List.cons_append, Sections.Machine.alone_cons_of_exec (fun _ => trivial) fun _ => rfl]
  rw [State.removeConnectionLocked_of_none hremoved]
  exact Sections.Machine.alone_nil

/-- The connections that are closed one after the other. -/
def closedAll (s : State) : List ℤ → State
  | [] => s
  | id :: ids =>
    match s.connections id with
    | none => closedAll s ids
    | some c => closedAll (closed s id c .terminatedByPeer) ids

/-- The connections of the list are open. -/
def AllOpen (s : State) (ids : List ℤ) : Prop :=
  ∀ id ∈ ids, ∃ c, s.connections id = some c ∧ c.state ≠ .inactive ∧ c.deadFired = false

theorem AllOpen.closed (h : AllOpen s ids) (hid : id ∉ ids) (error : CloseError) :
    AllOpen (Np.closed s id c error) ids := by
  intro id' hid'
  obtain ⟨c', hc', hopen⟩ := h id' hid'
  refine ⟨c', ?_, hopen⟩
  rw [closed_connections, Function.update_of_ne (ne_of_mem_of_not_mem hid' hid)]
  exact hc'

theorem alone_closeAll (hnodup : ids.Nodup) (hopen : AllOpen s ids) :
    signaling.Alone (ids.map (fun connId => .closeConnection connId .terminatedByPeer) ++ rest) s
      s' ↔ signaling.Alone rest (closedAll s ids) s' := by
  induction ids generalizing s with
  | nil => rfl
  | cons id ids ih =>
    obtain ⟨c, hc, hopenc⟩ := hopen id List.mem_cons_self
    have hrest : AllOpen s ids := fun id' hid' => hopen id' (List.mem_cons_of_mem _ hid')
    rw [List.nodup_cons] at hnodup
    rw [List.map_cons, List.cons_append, alone_closeConnection hc hopenc, closedAll, hc]
    exact ih hnodup.2 (hrest.closed hnodup.1 _)

/-- The events of the connections that are closed. -/
def deadEvents (s : State) (ids : List ℤ) : List QueuedDispatch :=
  ids.filterMap fun id => (s.connections id).map fun c => deadEvent c id .terminatedByPeer

theorem closedAll_dispatchQueue (hnodup : ids.Nodup)
    (hctx : s.contexts ctxId = some ctx) (hactive : ctx.active = true)
    (hcallback : ctx.callback = true)
    (hids : ∀ id ∈ ids, ∃ c, s.connections id = some c ∧ c.ctxId = ctxId) :
    (closedAll s ids).dispatchQueue = s.dispatchQueue ++ deadEvents s ids := by
  induction ids generalizing s with
  | nil => rw [closedAll, deadEvents, List.filterMap_nil, List.append_nil]
  | cons id ids ih =>
    obtain ⟨c, hc, rfl⟩ := hids id List.mem_cons_self
    rw [List.nodup_cons] at hnodup
    -- The other records are as they were.
    have hsame : ∀ id' ∈ ids,
      (closed s id c .terminatedByPeer).connections id' = s.connections id' := by
      intro id' hid'
      rw [closed_connections, Function.update_of_ne (ne_of_mem_of_not_mem hid' hnodup.1)]
    have hevents : deadEvents (closed s id c .terminatedByPeer) ids = deadEvents s ids := by
      refine List.filterMap_congr fun id' hid' => ?_
      rw [hsame id' hid']
    have hfirst : deadEvents s (id :: ids) = deadEvent c id .terminatedByPeer ::
      deadEvents s ids := by
      simp [deadEvents, hc]
    rw [closedAll, hc]
    dsimp only
    rw [ih hnodup.2 (by rw [closed_contexts, hctx]), closed_dispatchQueue hctx hactive hcallback,
      hevents, hfirst, List.append_assoc, List.singleton_append]
    intro id' hid'
    rw [hsame id' hid']
    exact hids id' (List.mem_cons_of_mem _ hid')

theorem deadEvents_filter (hnodup : ids.Nodup) (hid : id ∈ ids) (hc : s.connections id = some c) :
    (deadEvents s ids).filter (fun event => event.connId = id) =
      [deadEvent c id .terminatedByPeer] := by
  induction ids with
  | nil => cases hid
  | cons id' ids ih =>
    rw [List.nodup_cons] at hnodup
    rcases List.mem_cons.mp hid with rfl | hmem
    · have hother : (deadEvents s ids).filter (fun event => event.connId = id) = [] := by
        rw [List.filter_eq_nil_iff]
        intro event hevent
        obtain ⟨id', hid', hevent⟩ := List.mem_filterMap.mp hevent
        obtain ⟨c', -, rfl⟩ := Option.map_eq_some_iff.mp hevent
        have hne : id' ≠ id := ne_of_mem_of_not_mem hid' hnodup.1
        simp [deadEvent, hne]
      have hfirst : deadEvents s (id :: ids) = deadEvent c id .terminatedByPeer ::
        deadEvents s ids := by
        simp [deadEvents, hc]
      rw [hfirst, List.filter_cons_of_pos (by simp [deadEvent]), hother]
    · have hne : id' ≠ id := fun h => hnodup.1 (h ▸ hmem)
      have hskip : (deadEvents s (id' :: ids)).filter (fun event => event.connId = id) =
          (deadEvents s ids).filter (fun event => event.connId = id) := by
        cases hc' : s.connections id' with
        | none => simp [deadEvents, hc']
        | some c' => simp [deadEvents, hc', deadEvent, hne]
      rw [hskip, ih hnodup.2 hmem]

theorem exists_ids {limit : ℕ} (hbound : ∀ id c, s.connections id = some c → 0 ≤ id ∧ id < limit)
    (test : ConnectionInfo → Bool) :
    ∃ ids : List ℤ, ids.Nodup ∧ ∀ id, id ∈ ids ↔ ∃ c, s.connections id = some c ∧
      test c = true := by
  refine ⟨((List.range limit).map Int.ofNat).filter fun id => (s.connections id).any test, ?_, ?_⟩
  · exact (List.nodup_range.map fun _ _ h => Int.ofNat.inj h).filter _
  · intro id
    rw [List.mem_filter, List.mem_map]
    constructor
    · rintro ⟨-, htest⟩
      cases hc : s.connections id with
      | none =>
        rw [hc] at htest
        cases htest
      | some c =>
        rw [hc] at htest
        exact ⟨c, rfl, htest⟩
    · rintro ⟨c, hc, htest⟩
      obtain ⟨hlow, hhigh⟩ := hbound id c hc
      refine ⟨⟨id.toNat, ?_, Int.toNat_of_nonneg hlow⟩, ?_⟩
      · rw [List.mem_range]
        omega
      · rw [hc]
        exact htest

theorem alone_deleteContext (hreported : ∀ id c, s.connections id = some c → c.Reported)
    (h : signaling.Alone [.deleteContext ctxId] s s') : ∃ ids : List ℤ, ids.Nodup ∧
      (∀ id, id ∈ ids ↔ ∃ c, s.connections id = some c ∧ c.ctxId = ctxId ∧ c.status ≠ .inactive) ∧
      s' = removeContext (closedAll s ids) ctxId := by
  obtain ⟨input, ⟨hnodup, hids⟩, hrest⟩ := Sections.Machine.alone_cons.mp h
  refine ⟨input.ids, hnodup, hids, ?_⟩
  have hopen : AllOpen s input.ids := by
    intro id hid
    obtain ⟨c, hc, -, hstatus⟩ := (hids id).mp hid
    exact ⟨c, hc, (hreported id c hc).open_of_status hstatus⟩
  have hsections : (signaling.exec input (.deleteContext ctxId) s).2 =
      input.ids.map (fun connId => .closeConnection connId .terminatedByPeer) ++
        [.removeContext ctxId] := rfl
  rw [hsections, List.append_assoc] at hrest
  have hlast := (alone_closeAll hnodup hopen).mp hrest
  rw [List.cons_append, Sections.Machine.alone_cons_of_exec (fun _ => trivial) fun _ =>
    rfl] at hlast
  exact Sections.Machine.alone_nil.mp hlast

theorem exists_alone_deleteContext (hwf : s.WellFormed)
    (hreported : ∀ id c, s.connections id = some c → c.Reported) :
    ∃ s', signaling.Alone [.deleteContext ctxId] s s' := by
  obtain ⟨ids, hnodup, hids⟩ := exists_ids
    (fun id c hc => ⟨Int.le_trans (by decide) (hwf.bounds id c hc).1,
      Int.lt_of_le_of_lt (hwf.bounds id c hc).2
      (by decide : (0x7fff : ℤ) < (0x8000 : ℕ))⟩)
    fun c => c.ctxId = ctxId ∧ c.status ≠ .inactive
  simp only [decide_eq_true_eq] at hids
  have hopen : AllOpen s ids := by
    intro id hid
    obtain ⟨c, hc, -, hstatus⟩ := (hids id).mp hid
    exact ⟨c, hc, (hreported id c hc).open_of_status hstatus⟩
  refine ⟨removeContext (closedAll s ids) ctxId, Sections.Machine.alone_cons.mpr ?_⟩
  refine ⟨{ sampleInput with ids := ids }, ⟨hnodup, hids⟩, ?_⟩
  have hsections : (signaling.exec { sampleInput with ids := ids } (.deleteContext ctxId) s).2 =
      ids.map (fun connId => .closeConnection connId .terminatedByPeer) ++ [.removeContext ctxId] :=
        rfl
  rw [hsections, List.append_assoc]
  refine (alone_closeAll hnodup hopen).mpr ?_
  rw [List.cons_append, Sections.Machine.alone_cons_of_exec (fun _ => trivial) fun _ => rfl]
  exact .done

end Closing

/-- The calls that close a connection by its context and its id. -/
inductive Closes (s : State) (c : ConnectionInfo) (id : ℤ) : Task → Prop
  | terminate : s.isContextValid c.ctxId = true → Closes s c id (.terminateConnection c.ctxId id)
  | delete : Closes s c id (.deleteContext c.ctxId)

/-- A call that was not interrupted has removed the connection, with one `DEAD` for it. -/
structure ClosedOnce (s s' : State) (c : ConnectionInfo) (id : ℤ) : Prop where
  removed : s'.connections id = none
  staged : ∀ ctx, s.contexts c.ctxId = some ctx → ctx.active = true → ctx.callback = true →
    ∃ events error, s'.dispatchQueue = s.dispatchQueue ++ events ∧
      events.filter (fun event => event.connId = id) = [deadEvent c id error]

theorem closedOnce_terminate {s : State} {id : ℤ} {c : ConnectionInfo} :
    ClosedOnce s (closed s id c .terminatedByMyself) c id where
  removed := by simp
  staged ctx hctx hactive hcallback := by
    refine ⟨[deadEvent c id .terminatedByMyself], .terminatedByMyself, ?_, ?_⟩
    · exact closed_dispatchQueue hctx hactive hcallback _
    · simp [deadEvent]

theorem closedAll_connections {s : State} (ids : List ℤ) (id : ℤ) :
    (closedAll s ids).connections id = none ∨
      (closedAll s ids).connections id = s.connections id := by
  induction ids generalizing s with
  | nil => exact .inr rfl
  | cons id' ids ih =>
    rw [closedAll]
    split
    · exact ih
    · rename_i c hc
      rcases ih (s := closed s id' c .terminatedByPeer) with hnone | hsame
      · exact .inl hnone
      · rw [hsame, closed_connections]
        by_cases hid : id = id'
        · exact .inl (by rw [hid, Function.update_self])
        · exact .inr (Function.update_of_ne hid _ _)

theorem removeContext_closedAll_connections {s : State} {id : ℤ} {c : ConnectionInfo} (ids : List ℤ)
    (hc : s.connections id = some c) :
    (removeContext (closedAll s ids) c.ctxId).connections id = none := by
  rcases closedAll_connections (s := s) ids id with hnone | hsame
  · simp [removeContext, hnone]
  · simp [removeContext, hsame, hc]

theorem closedOnce_delete {s : State} {id : ℤ} {c : ConnectionInfo} {ids : List ℤ}
    (hnodup : ids.Nodup)
    (hids : ∀ id', id' ∈ ids ↔ ∃ c', s.connections id' = some c' ∧ c'.ctxId = c.ctxId ∧
      c'.status ≠ .inactive)
    (hc : s.connections id = some c) (hstatus : c.status ≠ .inactive) :
    ClosedOnce s (removeContext (closedAll s ids) c.ctxId) c id where
  removed := removeContext_closedAll_connections ids hc
  staged ctx hctx hactive hcallback := by
    refine ⟨deadEvents s ids, .terminatedByPeer, ?_, ?_⟩
    · refine closedAll_dispatchQueue hnodup hctx hactive hcallback ?_
      intro id' hid'
      obtain ⟨c', hc', hctxId, -⟩ := (hids id').mp hid'
      exact ⟨c', hc', hctxId⟩
    · exact deadEvents_filter hnodup ((hids id).mpr ⟨c, hc, rfl, hstatus⟩) hc

/-- The status is that of the state, and a call that closes a connection by its status stages one
`DEAD` and removes it. -/
theorem status_follows_state {seed : Fin 0x8000} {lastContext : Fin 9}
    {config : Sections.Config State Task}
    (h : signaling.Reachable NoRevival (State.initial seed lastContext) config) {id : ℤ}
    {c : ConnectionInfo}
    (hc : config.state.connections id = some c) :
    c.status = statusFromState c.state ∧
    (c.status ≠ .inactive → ∀ call, Closes config.state c id call →
      (∃ s', signaling.Alone [call] config.state s') ∧
      ∀ s', signaling.Alone [call] config.state s' → ClosedOnce config.state s' c id) := by
  have hreported := reported_of_reachable h
  refine ⟨(hreported id c hc).status, ?_⟩
  intro hstatus call hcall
  cases hcall with
  | terminate hvalid =>
    have halone (s' : State) : signaling.Alone [.terminateConnection c.ctxId id] config.state s' ↔
        s' = closed config.state id c .terminatedByMyself :=
      alone_terminateConnection hc ((hreported id c hc).open_of_status hstatus) hvalid
    refine ⟨⟨_, (halone _).mpr rfl⟩, ?_⟩
    intro s' hs'
    rw [(halone s').mp hs']
    exact closedOnce_terminate
  | delete =>
    refine ⟨exists_alone_deleteContext (wellFormed_of_reachable h) hreported, ?_⟩
    intro s' hs'
    obtain ⟨ids, hnodup, hids, rfl⟩ := alone_deleteContext hreported hs'
    exact closedOnce_delete hnodup hids hc hstatus

/-- The connection of `sampleActivated`. -/
theorem status_follows_state_sample :
    ((sampleConfig sampleActivated).state.connections 1).map ConnectionInfo.status = some .pending ∧
    ∀ c, (sampleConfig sampleActivated).state.connections 1 = some c →
      c.status = statusFromState c.state ∧
      (c.status ≠ .inactive → ∀ call, Closes (sampleConfig sampleActivated).state c 1 call →
        (∃ s', signaling.Alone [call] (sampleConfig sampleActivated).state s') ∧
        ∀ s', signaling.Alone [call] (sampleConfig sampleActivated).state s' →
          ClosedOnce (sampleConfig sampleActivated).state s' c 1) := by
  have hreachable : signaling.Reachable NoRevival (State.initial 0 0)
    (sampleConfig sampleActivated) := by
    refine sampleConfig_reachable ?_ ?_ ?_
    · exact fun s _ _ task => match task with
        | .activateConnectionA _ _ _ | .startHandshakeInitiator _ | .establishConnection _ _ =>
            false
        | _ => true
    · intro s held input task h
      cases task with
      | activateConnectionA ctxId accountId platformType => cases h
      | startHandshakeInitiator id => cases h
      | establishConnection id hint => cases h
      | _ => trivial
    · decide
  exact ⟨by decide, fun c hc => status_follows_state hreachable hc⟩

/-- The connection of an account is reported as pending while it is inactive. -/
def sampleAccount : List (Sections.Move Task Input) :=
  sampleCall 3 (.createContext (sampleNpId 98 0) true 0) 1 ++ sampleCall 3
    (.activateConnectionA 1 1 1) 1

/-- Its status is not that of its state, and ending it stages nothing. -/
theorem status_of_account :
    (¬ ∀ config, signaling.Reachable Sections.anyRun (State.initial 0 0) config →
      ∀ id c, config.state.connections id = some c → c.status = statusFromState c.state) ∧
    ¬ ∀ config, signaling.Reachable Sections.anyRun (State.initial 0 0) config →
      ∀ id c, config.state.connections id = some c → c.status ≠ .inactive →
        ∀ s', signaling.Alone [.terminateConnection c.ctxId id] config.state s' →
          ClosedOnce config.state s' c id := by
  have hreachable : signaling.Reachable Sections.anyRun (State.initial 0 0)
    (sampleConfig sampleAccount) :=
    sampleConfig_anyRun (by decide)
  constructor
  · intro h
    cases h _ hreachable 1 _ rfl
  · intro h
    have halone : signaling.Alone [.terminateConnection 1 1] (sampleConfig sampleAccount).state
        ((sampleConfig sampleAccount).state.removeConnectionLocked 1) := by
      refine Sections.Machine.alone_cons.mpr ⟨sampleInput, trivial, ?_⟩
      refine Sections.Machine.alone_cons.mpr ⟨sampleInput, trivial, ?_⟩
      exact Sections.Machine.alone_cons.mpr ⟨sampleInput, trivial, .done⟩
    obtain ⟨events, error, hqueue, hevents⟩ :=
      (h _ hreachable 1 _ rfl (by decide) _ halone).staged _ rfl rfl rfl
    have hnone : events = [] := hqueue.symm
    rw [hnone] at hevents
    cases hevents

end PS4Droid.Np
