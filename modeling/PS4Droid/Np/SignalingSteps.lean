import PS4Droid.Np.Signaling

/-!
# What one section does to one connection

A section leaves a record as it is, removes it, changes it in one of a few ways, or creates it.
-/

namespace PS4Droid.Np

/-- The ways in which a section changes the record `id`, with the sections that follow. -/
inductive Change (s : State) (input : Input) (id : ℤ) :
    Task → ConnectionInfo → ConnectionInfo → List Task → Prop
  | reactivate {ctxId : ℤ} {peer : NpId} {ctx : Context} {c : ConnectionInfo} :
    activationContext s input ctxId peer = some (true, ctx) → s.npidToConn (ctxId, peer) = some id →
    c.state ≠ .inactive →
    Change s input id (.activateConnection ctxId peer) c (activatePeer.reactivated c)
      (if c.state = .established then [.establishConnection id false] else [])
  | offer {addr port : ℕ} {datagram : Datagram} {c : ConnectionInfo} {packet : Handshake} :
    id = input.connection → c.state ≠ .inactive → c.deadFired = false →
      datagram.packet.kind = .offer →
    Change s input id (.handleHandshakePacket addr port datagram) c
      ((c.received input.nowUs).offered s.calloutCtxActive addr port datagram.packet.mappedAddr)
      (if c.state ≠ .established then [.sendHandshake id ⟨packet, c.life, datagram.life⟩] else [])
  | accept {addr port : ℕ} {datagram : Datagram} {c : ConnectionInfo} {packet : Handshake} :
    id = input.connection → c.state ≠ .inactive → c.deadFired = false →
      datagram.packet.kind = .accept → packet.kind = .check →
    Change s input id (.handleHandshakePacket addr port datagram) c
      ((c.received input.nowUs).accepted s.calloutCtxActive addr port datagram.packet.mappedAddr)
      (if c.expectsAccept then [.sendHandshake id ⟨packet, c.life, datagram.life⟩] else [])
  | check {addr port : ℕ} {datagram : Datagram} {c : ConnectionInfo} {packet : Handshake} :
    id = input.connection → c.state ≠ .inactive → c.deadFired = false →
      datagram.packet.kind = .check → packet.kind = .checkAck →
    Change s input id (.handleHandshakePacket addr port datagram) c
      (c.received input.nowUs).checked
      [.sendHandshake id ⟨packet, c.life, datagram.life⟩]
  | checkAck {addr port : ℕ} {datagram : Datagram} {c : ConnectionInfo} :
    id = input.connection → c.state ≠ .inactive → c.deadFired = false →
      datagram.packet.kind = .checkAck →
    Change s input id (.handleHandshakePacket addr port datagram) c
      (c.received input.nowUs)
      (if c.state ≠ .established then [.establishConnection id true] else [])
  | otherPacket {addr port : ℕ} {datagram : Datagram} {c : ConnectionInfo} :
    id = input.connection → c.state ≠ .inactive → c.deadFired = false →
    Change s input id (.handleHandshakePacket addr port datagram) c
      (c.received input.nowUs) []
  | request {addr port : ℕ} {packet : Control} {c : ConnectionInfo} :
    id = input.connection → c.state ≠ .inactive → c.deadFired = false →
      packet.kind = .activationRequest →
    Change s input id (.handleControlPacket addr port packet) c
      (c.requested s.calloutCtxActive addr port packet.mappedAddr) []
  | acknowledge {addr port : ℕ} {packet : Control} {c : ConnectionInfo} :
    id = input.connection → c.state ≠ .inactive → c.deadFired = false →
      packet.kind = .activationAck →
    Change s input id (.handleControlPacket addr port packet) c (c.acknowledged packet.mappedAddr)
      []
  | peerEstablished {addr port : ℕ} {packet : Control} {c : ConnectionInfo} :
    id = input.connection → c.state ≠ .inactive → c.deadFired = false →
    Change s input id (.handleControlPacket addr port packet) c { c with peerEstablished := true }
      (if c.state = .established then [.establishConnection id false] else [])
  | timeout {c : ConnectionInfo} :
    Change s input id (.timeoutCallout id) c c.timeoutFired
      (if c.state ≠ .established ∨ c.deactivateLingering then [.closeConnection id .timeout]
        else [])
  | step {c : ConnectionInfo} :
    Change s input id (.stepCallout id) c (c.stepFired s.calloutCtxActive input.nowUs)
      (if c.isWatched && c.isSilent input.nowUs then [.closeConnection id .timeout] else [])
  | linger {c : ConnectionInfo} :
    c.state = .established → c.deadFired = false → c.deactivateLingering = false →
    Change s input id (.deactivateFaithful id) c (c.linger s.calloutCtxActive) []
  | close {error : CloseError} {c : ConnectionInfo} : c.state ≠ .inactive → c.deadFired = false →
    Change s input id (.closeConnection id error) c c.close
      [.dispatchConnectionEvent id c.life .dead (some error), .removeConnection id]
  | establish {peerActivatedHint : Bool} {c : ConnectionInfo} :
    Change s input id (.establishConnection id peerActivatedHint) c
      (c.establish s.calloutCtxActive input.nowUs peerActivatedHint)
      ((if c.firesPeerActivated then [.dispatchPeerActivatedEvent id c.life] else []) ++
      (if ((c.hint peerActivatedHint).enterEstablished s.calloutCtxActive
        input.nowUs).firesEstablished then
        [.dispatchConnectionEvent id c.life .established none] else []) ++
      (if ((c.hint peerActivatedHint).enterEstablished s.calloutCtxActive
        input.nowUs).firesMutual then
        [.dispatchConnectionEvent id c.life .mutualActivated none] else []))
  | start {c : ConnectionInfo} :
    Change s input id (.startHandshakeInitiator id) c (c.startHandshake s.calloutCtxActive) []
  | resolve {peerOnlineId : List UInt8} {addr port : ℕ} {c : ConnectionInfo} :
    c.state ≠ .inactive → addr ≠ 0 → port ≠ 0 →
    Change s input id (.resolveActivation ⟨id, peerOnlineId⟩) c
      { c with addr := addr, port := port }
      [.startHandshakeInitiator id]

/-- The ways in which a section creates the record `id`. -/
inductive Creation (s : State) (input : Input) (id : ℤ) : Task → ConnectionInfo → List Task → Prop
  | activate {ctxId : ℤ} {peer : NpId} :
    Creation s input id (.activateConnection ctxId peer)
      (activatedConnection id ctxId s.lives peer s.calloutCtxActive) []
  | activateA {ctxId : ℤ} {accountId platformType : ℕ} {ctx : Context} :
    activationContextA s input ctxId accountId platformType = some (true, ctx) →
    Creation s input id (.activateConnectionA ctxId accountId platformType)
      { connId := id, ctxId := ctxId, life := s.lives, status := .pending } []
  | answer {addr port : ℕ} {packet : Control} {ctxId : ℤ} :
    Creation s input id (.handleControlPacket addr port packet)
      ((answererConnection id ctxId s.lives packet.onlineIdFrom).requested s.calloutCtxActive addr
        port
        packet.mappedAddr)
      [.startHandshakeInitiator id]

/-- The sections that remove records. -/
def Task.IsRemoval : Task → Prop
  | .activateConnection _ _ | .removeConnection _ | .removeContext _ => True
  | _ => False

/-- The record `id` is the only one that is created, and replaces none or an inactive one. -/
structure NewRecord (s s' : State) (id : ℤ) : Prop where
  bounds : s.connectionIdSeed ≤ 0x7fff → 1 ≤ id ∧ id ≤ 0x7fff
  replaced : ∀ c, s.connections id = some c → c.state = .inactive
  others : ∀ id', id' ≠ id → s'.connections id' = s.connections id' ∨ s'.connections id' = none
  lives : s'.lives = s.lives + 1

/-- What a section does to the record `id`. -/
inductive Outcome (s : State) (input : Input) (id : ℤ) (task : Task) : State → List Task → Prop
  | same {s' : State} {tasks : List Task} : s'.connections id = s.connections id →
    Outcome s input id task s' tasks
  | removed {s' : State} {tasks : List Task} : task.IsRemoval → s'.connections id = none →
    Outcome s input id task s' tasks
  | changed {s' : State} {tasks : List Task} {c c' : ConnectionInfo} :
    s.connections id = some c → s'.connections id = some c' →
    Change s input id task c c' tasks → Outcome s input id task s' tasks
  | created {s' : State} {tasks : List Task} {c' : ConnectionInfo} :
    NewRecord s s' id → s'.connections id = some c' → Creation s input id task c' tasks →
    Outcome s input id task s' tasks

/-! ## New ids -/

variable {taken : ℤ → Bool} {tries seed random : ℕ} {id : ℤ} {c : ConnectionInfo}
  {ok : State → List Task → Input → Task → Prop} {lastContext : Fin 9}
  {config : Sections.Config State Task}

theorem allocateLoop_spec {next : ℕ} (h : State.allocateLoop taken tries seed = (some id, next)) :
    taken id = false ∧ (seed ≤ 0x7fff → 1 ≤ id ∧ id ≤ 0x7fff) := by
  induction tries generalizing seed with
  | zero => cases h
  | succ tries ih =>
    rw [State.allocateLoop] at h
    split_ifs at h with hfree hnext hnext
    · simp only [Prod.mk.injEq, Option.some.injEq] at h
      obtain ⟨rfl, rfl⟩ := h
      exact ⟨by simpa using hfree.2, by omega⟩
    · simp only [Prod.mk.injEq, Option.some.injEq] at h
      obtain ⟨rfl, rfl⟩ := h
      exact ⟨by simpa using hfree.2, by omega⟩
    · exact ⟨(ih h).1, fun _ => (ih h).2 (by omega)⟩
    · exact ⟨(ih h).1, fun _ => (ih h).2 (by omega)⟩

theorem allocateLoop_seed (hseed : seed ≤ 0x7fff) :
    (State.allocateLoop taken tries seed).2 ≤ 0x7fff := by
  induction tries generalizing seed with
  | zero => exact hseed
  | succ tries ih =>
    rw [State.allocateLoop]
    split_ifs
    · exact Nat.le_of_ble_eq_true rfl
    · dsimp only
      omega
    · exact ih (by omega)
    · exact ih (by omega)

theorem State.drawnSeed_le {s : State} (random : ℕ) (hseed : s.connectionIdSeed ≤ 0x7fff) :
    s.drawnSeed random ≤ 0x7fff := by
  rw [State.drawnSeed]
  dsimp only
  split_ifs <;> omega

theorem State.allocateConnectionId_spec {s s' : State}
    (h : s.allocateConnectionId random = (some id, s')) :
    (∃ next, s' = { s with connectionIdSeed := next }) ∧ s.connections id = none ∧
      (s.connectionIdSeed ≤ 0x7fff → 1 ≤ id ∧ id ≤ 0x7fff) := by
  rw [State.allocateConnectionId] at h
  generalize hfound : State.allocateLoop _ _ _ = found at h
  obtain ⟨hid, rfl⟩ := Prod.mk.inj h
  have hspec := allocateLoop_spec (hfound.trans (Prod.ext hid rfl))
  refine ⟨⟨_, rfl⟩, ?_, ?_⟩
  · simpa using hspec.1
  · intro hseed
    exact hspec.2 (State.drawnSeed_le random hseed)

theorem State.allocateConnectionId_seed {s : State} (hseed : s.connectionIdSeed ≤ 0x7fff) :
    (s.allocateConnectionId random).2.connectionIdSeed ≤ 0x7fff := by
  rw [State.allocateConnectionId]
  exact allocateLoop_seed (State.drawnSeed_le random hseed)

theorem State.allocateConnectionId_none {s s' : State}
    (h : s.allocateConnectionId random = (none, s')) :
    ∃ next, s' = { s with connectionIdSeed := next } := by
  rw [State.allocateConnectionId] at h
  obtain ⟨-, rfl⟩ := Prod.mk.inj h
  exact ⟨_, rfl⟩

/-! ## The sections -/

section Sections

variable {s s' : State} {input : Input} {task : Task} {tasks : List Task} {connId id ctxId : ℤ}
  {c c' : ConnectionInfo} {f : ConnectionInfo → State × List Task} {peer npid : NpId} {s₀ : State}
  {accountId platformType fromAddr fromPort flags : ℕ} {datagram : Datagram} {packet : Control}
  {callback : Bool}

@[simp] theorem State.setConnection_connections (connId : ℤ) (ci : ConnectionInfo) :
    (s.setConnection connId ci).connections = Function.update s.connections connId (some ci) := rfl

@[simp] theorem State.create_connections (connId : ℤ) (ci : ConnectionInfo)
    (key : Option (ℤ × NpId)) :
    (s.create connId ci key).connections = Function.update s.connections connId (some ci) := rfl

@[simp] theorem State.send_connections (ci : ConnectionInfo) (datagram : Datagram) :
    (s.send ci datagram).connections = s.connections := by
  rw [State.send]
  split_ifs <;> rfl

@[simp] theorem State.stage_connections (ctx : Context) (dispatch : QueuedDispatch) :
    (s.stage ctx dispatch).connections = s.connections := by
  rw [State.stage]
  split_ifs <;> rfl

theorem Outcome.of_update (hc : s.connections connId = some c)
    (hs' : s'.connections = Function.update s.connections connId (some c'))
    (hchange : Change s input connId task c c' tasks) (id : ℤ) :
    Outcome s input id task s' tasks := by
  by_cases hid : id = connId
  · subst hid
    exact .changed hc (by rw [hs', Function.update_self]) hchange
  · exact .same (by rw [hs', Function.update_of_ne hid])

theorem Outcome.of_eq (hs' : s'.connections = s.connections) (id : ℤ) :
    Outcome s input id task s' tasks :=
  .same (by rw [hs'])

theorem Outcome.onConnection
    (h : ∀ c, s.connections connId = some c → Outcome s input id task (f c).1 (f c).2) :
    Outcome s input id task (onConnection s connId f).1 (onConnection s connId f).2 := by
  rw [Np.onConnection]
  split
  · exact .same rfl
  · exact h _ ‹_›

theorem activateNew_outcome
    (hactive : s₀.calloutCtxActive = s.calloutCtxActive) (hlives : s₀.lives = s.lives)
    (hseed : s₀.connectionIdSeed = s.connectionIdSeed)
    (hs₀ : ∀ id, s₀.connections id = s.connections id ∨
      s₀.connections id = none ∧ ∀ c, s.connections id = some c → c.state = .inactive) :
    Outcome s input id (.activateConnection ctxId peer) (activateNew s₀ input ctxId peer) [] := by
  have hkept {s' : State} (hs' : s'.connections id = s₀.connections id) :
      Outcome s input id (.activateConnection ctxId peer) s' [] := by
    rcases hs₀ id with hsame | ⟨hnone, -⟩
    · exact .same (hs'.trans hsame)
    · exact .removed trivial (hs'.trans hnone)
  rw [activateNew]
  split
  · rename_i s' halloc
    obtain ⟨next, rfl⟩ := State.allocateConnectionId_none halloc
    exact hkept rfl
  · rename_i connId s' halloc
    obtain ⟨⟨next, rfl⟩, hfree, hbound⟩ := State.allocateConnectionId_spec halloc
    by_cases hid : id = connId
    · subst hid
      rw [hseed] at hbound
      refine .created ⟨hbound, ?_, ?_, congrArg (· + 1) hlives⟩ (Function.update_self _ _ _) ?_
      · rcases hs₀ id with hsame | ⟨-, hinactive⟩
        · intro c hc
          rw [hsame, hc] at hfree
          cases hfree
        · exact hinactive
      · intro id' hid'
        have hother : (State.create { s₀ with connectionIdSeed := next } id
            (activatedConnection id ctxId s₀.lives peer s₀.calloutCtxActive)
              (some (ctxId, peer))).connections id' =
              s₀.connections id' := Function.update_of_ne hid' _ _
        exact (hs₀ id').imp (hother.trans ·) fun h => hother.trans h.1
      · dsimp only
        rw [hactive, hlives]
        exact .activate
    · exact hkept (Function.update_of_ne hid _ _)

@[simp] theorem State.removeConnectionLocked_connections (connId : ℤ) :
    (s.removeConnectionLocked connId).connections = Function.update s.connections connId none := by
  rw [State.removeConnectionLocked]
  split
  · rename_i hnone
    rw [← hnone, Function.update_eq_self]
  · rfl

@[simp] theorem State.removeConnectionLocked_calloutCtxActive (connId : ℤ) :
    (s.removeConnectionLocked connId).calloutCtxActive = s.calloutCtxActive := by
  rw [State.removeConnectionLocked]
  split <;> rfl

@[simp] theorem State.removeConnectionLocked_lives (connId : ℤ) :
    (s.removeConnectionLocked connId).lives = s.lives := by
  rw [State.removeConnectionLocked]
  split <;> rfl

@[simp] theorem State.removeConnectionLocked_connectionIdSeed (connId : ℤ) :
    (s.removeConnectionLocked connId).connectionIdSeed = s.connectionIdSeed := by
  rw [State.removeConnectionLocked]
  split <;> rfl

/-- A packet is handled for a connection that is neither inactive nor dead. -/
theorem FindsPeer.live {fromId : List UInt8} (h : FindsPeer s fromId connId)
    (hzero : s.connections 0 = none) (hc : s.connections connId = some c) :
    c.state ≠ .inactive ∧ c.deadFired = false := by
  rcases h with ⟨c', hc', hmatch⟩ | ⟨rfl, -⟩
  · obtain rfl := Option.some.inj (hc.symm.trans hc')
    simp only [ConnectionInfo.matchesPeer, Bool.and_eq_true, bne_iff_ne,
      Bool.not_eq_true'] at hmatch
    exact hmatch.1
  · cases hzero.symm.trans hc

theorem activatePeer_outcome {ctx : Context}
    (hagreed : activationContext s input ctxId peer = some (true, ctx))
    (hkeys : s₀.npidToConn = s.npidToConn)
    (hactive : s₀.calloutCtxActive = s.calloutCtxActive) (hlives : s₀.lives = s.lives)
    (hseed : s₀.connectionIdSeed = s.connectionIdSeed) (hs₀ : s₀.connections = s.connections)
    (id : ℤ) :
    Outcome s input id (.activateConnection ctxId peer) (activatePeer s₀ input ctxId peer).1
      (activatePeer s₀ input ctxId peer).2 := by
  have hnew : Outcome s input id (.activateConnection ctxId peer) (activateNew s₀ input ctxId peer)
    [] :=
    activateNew_outcome hactive hlives hseed fun id => .inl (congrFun hs₀ id)
  rw [activatePeer]
  split
  · exact hnew
  rename_i connId hkey
  rw [hkeys] at hkey
  split
  · exact hnew
  rename_i c hc
  rw [hs₀] at hc
  split
  · rename_i hinactive
    refine activateNew_outcome (by simp [hactive]) (by simp [hlives]) (by simp [hseed]) fun id => ?_
    rw [State.removeConnectionLocked_connections, hs₀]
    by_cases hid : id = connId
    · subst hid
      refine .inr ⟨Function.update_self _ _ _, ?_⟩
      intro c' hc'
      obtain rfl := Option.some.inj (hc.symm.trans hc')
      exact hinactive
    · exact .inl (Function.update_of_ne hid _ _)
  · exact .of_update hc (by rw [State.setConnection_connections, hs₀])
      (.reactivate hagreed hkey ‹_›) id

theorem activateConnection_outcome (id : ℤ) :
    Outcome s input id (.activateConnection ctxId peer) (activateConnection s input ctxId peer).1
      (activateConnection s input ctxId peer).2 := by
  rw [activateConnection]
  split
  · exact .same rfl
  · rename_i hagreed
    dsimp only
    split
    · rename_i hgranted
      rw [hgranted] at hagreed
      exact activatePeer_outcome hagreed (by rfl) (by rfl) (by rfl) (by rfl) (by rfl) id
    · exact .same rfl

theorem activateConnectionA_outcome (id : ℤ) :
    Outcome s input id (.activateConnectionA ctxId accountId platformType)
      (activateConnectionA s input ctxId accountId platformType) [] := by
  rw [activateConnectionA]
  split
  · exact .same rfl
  rename_i hagreed
  dsimp only
  split
  · rename_i hgranted
    rw [hgranted] at hagreed
    split
    · rename_i s' halloc
      obtain ⟨next, rfl⟩ := State.allocateConnectionId_none halloc
      exact .same rfl
    · rename_i connId s' halloc
      obtain ⟨⟨next, rfl⟩, hfree, hbound⟩ := State.allocateConnectionId_spec halloc
      by_cases hid : id = connId
      · subst hid
        refine .created ⟨hbound, ?_, ?_, rfl⟩ (Function.update_self _ _ _) (.activateA hagreed)
        · intro c hc
          cases hfree.symm.trans hc
        · exact fun id' hid' => .inl (Function.update_of_ne hid' _ _)
      · exact .same (Function.update_of_ne hid _ _)
  · exact .same rfl

theorem handleHandshakePacket_outcome
    (hfound : FindsPeer s (textOf datagram.packet.onlineIdFrom) input.connection)
    (hzero : s.connections 0 = none) (id : ℤ) :
    Outcome s input id (.handleHandshakePacket fromAddr fromPort datagram)
      (handleHandshakePacket s input fromAddr fromPort datagram).1
      (handleHandshakePacket s input fromAddr fromPort datagram).2 := by
  rw [handleHandshakePacket]
  refine .onConnection fun c hc => ?_
  obtain ⟨hstate, hdead⟩ := hfound.live hzero hc
  dsimp only
  split
  · exact .of_update hc rfl (.offer rfl hstate hdead ‹_›) id
  · exact .of_update hc rfl (.accept rfl hstate hdead ‹_› rfl) id
  · exact .of_update hc rfl (.check rfl hstate hdead ‹_› rfl) id
  · exact .of_update hc rfl (.checkAck rfl hstate hdead ‹_›) id
  · exact .of_update hc rfl (.otherPacket rfl hstate hdead) id

theorem answerRequest_outcome (id : ℤ) :
    Outcome s input id (.handleControlPacket fromAddr fromPort packet)
      (answerRequest s input fromAddr fromPort packet).1
      (answerRequest s input fromAddr fromPort packet).2 := by
  rw [answerRequest]
  split
  · exact .same rfl
  split
  · rename_i s' halloc
    obtain ⟨next, rfl⟩ := State.allocateConnectionId_none halloc
    exact .same rfl
  · rename_i connId s' halloc
    obtain ⟨⟨next, rfl⟩, hfree, hbound⟩ := State.allocateConnectionId_spec halloc
    by_cases hid : id = connId
    · subst hid
      refine .created ⟨hbound, ?_, ?_, rfl⟩ (Function.update_self _ _ _) .answer
      · intro c hc
        cases hfree.symm.trans hc
      · intro id' hid'
        exact .inl ((Function.update_of_ne hid' _ _).trans (Function.update_of_ne hid' _ _))
    · refine .same ?_
      exact (Function.update_of_ne hid _ _).trans (Function.update_of_ne hid _ _)

theorem handleControlPacket_outcome
    (hfound : FindsPeer s (textOf packet.onlineIdFrom) input.connection)
    (hzero : s.connections 0 = none)
    (id : ℤ) : Outcome s input id (.handleControlPacket fromAddr fromPort packet)
      (handleControlPacket s input fromAddr fromPort packet).1
      (handleControlPacket s input fromAddr fromPort packet).2 := by
  rw [handleControlPacket]
  split
  · split
    · exact answerRequest_outcome id
    · refine .onConnection fun c hc => ?_
      obtain ⟨hstate, hdead⟩ := hfound.live hzero hc
      rw [requestConnection, if_neg hstate]
      exact .of_update hc rfl (.request rfl hstate hdead ‹_›) id
  · refine .onConnection fun c hc => ?_
    obtain ⟨hstate, hdead⟩ := hfound.live hzero hc
    exact .of_update hc rfl (.acknowledge rfl hstate hdead ‹_›) id
  · refine .onConnection fun c hc => ?_
    obtain ⟨hstate, hdead⟩ := hfound.live hzero hc
    exact .of_update hc rfl (.peerEstablished rfl hstate hdead) id
  · exact .onConnection fun c hc => .same rfl
  · exact .same rfl

theorem stepCallout_outcome (id : ℤ) :
    Outcome s input id (.stepCallout connId) (stepCallout s input connId).1
      (stepCallout s input connId).2 := by
  rw [stepCallout]
  refine .onConnection fun c hc => ?_
  have hchange := @Change.step s input connId c
  dsimp only
  split
  · rename_i hsilent
    rw [if_pos hsilent] at hchange
    exact .of_update hc rfl hchange id
  · rename_i hsilent
    rw [if_neg hsilent] at hchange
    split
    · exact .of_update hc (State.send_connections _ _) hchange id
    · exact .of_update hc rfl hchange id

theorem dispatchConnectionEvent_connections (connId : ℤ) (event : Event)
    (error : Option CloseError) :
    (dispatchConnectionEvent s connId event error).connections = s.connections := by
  rw [dispatchConnectionEvent]
  split
  · rfl
  split
  · rfl
  split
  · exact State.stage_connections _ _
  · rfl

theorem dispatchPeerActivatedEvent_connections (connId : ℤ) :
    (dispatchPeerActivatedEvent s input connId).connections = s.connections := by
  rw [dispatchPeerActivatedEvent]
  split
  · rfl
  · dsimp only
    refine List.foldlRecOn (motive := fun s' : State => s'.connections = s.connections) _ _ rfl ?_
    intro s' ih ctxId _
    split
    · exact ih
    · split
      · rw [State.stage_connections, ih]
      · exact ih

theorem createContext_connections :
    (createContext s input npid callback flags).connections = s.connections := by
  rw [createContext, State.allocateContextId]
  split
  · rename_i h
    split at h
    · rw [← (Prod.mk.inj h).2]
    · cases h
  · rename_i h
    split at h
    · cases h
    · rw [← (Prod.mk.inj h).2]

theorem removeContext_outcome (id : ℤ) :
    Outcome s input id (.removeContext ctxId) (removeContext s ctxId) [] := by
  cases hc : s.connections id with
  | none => exact .removed trivial (by simp [removeContext, hc])
  | some c =>
    by_cases hctx : c.ctxId = ctxId
    · exact .removed trivial (by simp [removeContext, hc, hctx])
    · exact .same (by simp [removeContext, hc, hctx])

theorem exec_outcome (hallowed : Allowed s input task) (hzero : s.connections 0 = none) (id : ℤ) :
    Outcome s input id task (exec input task s).1 (exec input task s).2 := by
  cases task with
  | createContext npid callback flags => exact .of_eq createContext_connections id
  | activateConnection ctxId peer => exact activateConnection_outcome id
  | activateConnectionA ctxId accountId platformType => exact activateConnectionA_outcome id
  | deactivateConnection ctxId connId | terminateConnection ctxId connId
  | checkActivation activation =>
    exact .onConnection fun c hc => .same rfl
  | deleteContext ctxId => exact .same rfl
  | handleHandshakePacket fromAddr fromPort datagram =>
    exact handleHandshakePacket_outcome hallowed hzero id
  | handleControlPacket fromAddr fromPort packet =>
      exact handleControlPacket_outcome hallowed.1 hzero id
  | timeoutCallout connId => exact .onConnection fun c hc => .of_update hc rfl .timeout id
  | stepCallout connId => exact stepCallout_outcome id
  | processPendingActivations => exact .same rfl
  | deactivateFaithful connId =>
    refine .onConnection fun c hc => ?_
    split_ifs with hdead hestablished hlingering
    · exact .same rfl
    · exact .same rfl
    · exact .of_update hc rfl
        (.linger hestablished (by simpa using hdead) (by simpa using hlingering)) id
    · exact .same rfl
  | closeConnection connId error =>
    refine .onConnection fun c hc => ?_
    split_ifs with hclosed
    · exact .same rfl
    · rw [not_or, Bool.not_eq_true] at hclosed
      exact .of_update hc rfl (.close hclosed.1 hclosed.2) id
  | dispatchConnectionEvent connId life event error =>
    exact .of_eq (dispatchConnectionEvent_connections connId event error) id
  | dispatchPeerActivatedEvent connId life =>
      exact .of_eq (dispatchPeerActivatedEvent_connections connId) id
  | removeConnection connId =>
    by_cases hid : id = connId
    · subst hid
      exact .removed trivial (by simp [exec])
    · exact .same (by simp [exec, hid])
  | establishConnection connId peerActivatedHint =>
    exact .onConnection fun c hc => .of_update hc rfl .establish id
  | startHandshakeInitiator connId =>
    cases hc : s.connections connId with
    | none => exact .same (by simp [exec, startHandshakeInitiator, hc])
    | some c => exact .of_update hc (by simp [exec, startHandshakeInitiator, hc]) .start id
  | sendHandshake connId datagram =>
    exact .onConnection fun c hc => .of_eq (State.send_connections _ _) id
  | resolveActivation activation =>
    rw [exec, resolveActivation]
    split
    · exact .same rfl
    · split
      · exact .same rfl
      · rename_i haddr
        rw [not_or] at haddr
        refine .onConnection fun c hc => ?_
        split
        · exact .same rfl
        · exact .of_update hc rfl (.resolve ‹_› haddr.1 haddr.2) id
  | removeContext ctxId => exact removeContext_outcome id

/-- Where a record after a section comes from. -/
theorem exec_cases (hallowed : Allowed s input task) (hzero : s.connections 0 = none)
    (hc' : (exec input task s).1.connections id = some c') : s.connections id = some c' ∨
      (∃ c, s.connections id = some c ∧ Change s input id task c c' (exec input task s).2) ∨
      NewRecord s (exec input task s).1 id ∧ Creation s input id task c' (exec input task s).2 := by
  cases exec_outcome hallowed hzero id with
  | same hsame => exact .inl (hsame.symm.trans hc')
  | removed _ hnone => cases hnone.symm.trans hc'
  | changed hbefore hafter hchange =>
    obtain rfl := Option.some.inj (hafter.symm.trans hc')
    exact .inr (.inl ⟨_, hbefore, hchange⟩)
  | created hnew hafter hcreation =>
    obtain rfl := Option.some.inj (hafter.symm.trans hc')
    exact .inr (.inr ⟨hnew, hcreation⟩)

/-! ## What stays -/

/-- The parts of the state that no section about connections touches. -/
structure Quiet (s s' : State) : Prop where
  calloutCtxActive : s'.calloutCtxActive = s.calloutCtxActive
  connectionIdSeed : s.connectionIdSeed ≤ 0x7fff → s'.connectionIdSeed ≤ 0x7fff
  dispatchQueue : s'.dispatchQueue = s.dispatchQueue
  sent : s'.sent = s.sent
  lives : s.lives ≤ s'.lives

theorem Quiet.refl (s : State) : Quiet s s := ⟨rfl, id, rfl, rfl, Nat.le_refl _⟩

theorem Quiet.trans {s₁ s₂ s₃ : State} (h : Quiet s₁ s₂) (h' : Quiet s₂ s₃) : Quiet s₁ s₃ where
  calloutCtxActive := h'.calloutCtxActive.trans h.calloutCtxActive
  connectionIdSeed := h'.connectionIdSeed ∘ h.connectionIdSeed
  dispatchQueue := h'.dispatchQueue.trans h.dispatchQueue
  sent := h'.sent.trans h.sent
  lives := Nat.le_trans h.lives h'.lives

theorem quiet_setConnection (connId : ℤ) (ci : ConnectionInfo) :
    Quiet s (s.setConnection connId ci) :=
  ⟨rfl, id, rfl, rfl, Nat.le_refl _⟩

theorem quiet_create (connId : ℤ) (ci : ConnectionInfo) (key : Option (ℤ × NpId)) :
    Quiet s (s.create connId ci key) :=
  ⟨rfl, id, rfl, rfl, Nat.le_succ _⟩

theorem quiet_contexts (contexts : ℤ → Option Context) : Quiet s { s with contexts := contexts } :=
  ⟨rfl, id, rfl, rfl, Nat.le_refl _⟩

theorem quiet_removeConnectionLocked (connId : ℤ) : Quiet s (s.removeConnectionLocked connId) := by
  rw [State.removeConnectionLocked]
  split
  · exact .refl s
  · exact ⟨rfl, id, rfl, rfl, Nat.le_refl _⟩

theorem quiet_allocateConnectionId (random : ℕ) : Quiet s (s.allocateConnectionId random).2 :=
  ⟨rfl, State.allocateConnectionId_seed, rfl, rfl, Nat.le_refl _⟩

theorem quiet_of_allocated {random : ℕ} {connId : Option ℤ}
    (h : s.allocateConnectionId random = (connId, s')) : Quiet s s' := by
  have hquiet := quiet_allocateConnectionId (s := s) random
  rwa [h] at hquiet

theorem quiet_onConnection (h : ∀ c, s.connections connId = some c → Quiet s (f c).1) :
    Quiet s (onConnection s connId f).1 := by
  rw [onConnection]
  split
  · exact .refl s
  · exact h _ ‹_›

theorem quiet_activateNew : Quiet s (activateNew s input ctxId peer) := by
  rw [activateNew]
  split
  · exact quiet_of_allocated ‹_›
  · refine (quiet_of_allocated ‹_›).trans ?_
    exact ⟨rfl, id, rfl, rfl, Nat.le_succ _⟩

theorem quiet_activatePeer : Quiet s (activatePeer s input ctxId peer).1 := by
  rw [activatePeer]
  split
  · exact quiet_activateNew
  split
  · exact quiet_activateNew
  split
  · exact (quiet_removeConnectionLocked _).trans quiet_activateNew
  · exact quiet_setConnection _ _

theorem quiet_activateConnection :
    Quiet s (activateConnection s input ctxId peer).1 := by
  rw [activateConnection]
  split
  · exact .refl s
  · dsimp only
    split
    · exact (quiet_contexts _).trans quiet_activatePeer
    · exact quiet_contexts _

theorem quiet_activateConnectionA :
    Quiet s (activateConnectionA s input ctxId accountId platformType) := by
  rw [activateConnectionA]
  split
  · exact .refl s
  dsimp only
  split
  · split
    · exact (quiet_contexts _).trans (quiet_of_allocated ‹_›)
    · exact (quiet_contexts _).trans ((quiet_of_allocated ‹_›).trans (quiet_create _ _ _))
  · exact quiet_contexts _

theorem quiet_handleControlPacket :
    Quiet s (handleControlPacket s input fromAddr fromPort packet).1 := by
  rw [handleControlPacket]
  split
  · split
    · rw [answerRequest]
      split
      · exact .refl s
      split
      · exact quiet_of_allocated ‹_›
      · exact (quiet_of_allocated ‹_›).trans ((quiet_create _ _ _).trans (quiet_setConnection _ _))
    · exact quiet_onConnection fun c hc => quiet_setConnection _ _
  · exact quiet_onConnection fun c hc => quiet_setConnection _ _
  · exact quiet_onConnection fun c hc => quiet_setConnection _ _
  · exact quiet_onConnection fun c hc => .refl s
  · exact .refl s

theorem quiet_handleHandshakePacket :
    Quiet s (handleHandshakePacket s input fromAddr fromPort datagram).1 := by
  rw [handleHandshakePacket]
  refine quiet_onConnection fun c hc => ?_
  dsimp only
  split <;> exact quiet_setConnection _ _

theorem quiet_createContext :
    Quiet s (createContext s input npid callback flags) := by
  rw [createContext, State.allocateContextId]
  split
  · rename_i h
    split at h
    · rw [← (Prod.mk.inj h).2]
      exact .refl s
    · cases h
  · rename_i h
    split at h
    · cases h
    · rw [← (Prod.mk.inj h).2]
      exact ⟨rfl, id, rfl, rfl, Nat.le_refl _⟩

/-- The sections that put events into the queue. -/
def Task.IsDispatch : Task → Prop
  | .dispatchConnectionEvent _ _ _ _ | .dispatchPeerActivatedEvent _ _ => True
  | _ => False

/-- The sections that send handshakes. -/
def Task.IsSend : Task → Prop
  | .sendHandshake _ _ | .startHandshakeInitiator _ | .stepCallout _ => True
  | _ => False

theorem exec_quiet (hdispatch : ¬ task.IsDispatch) (hsend : ¬ task.IsSend) :
    Quiet s (exec input task s).1 := by
  cases task with
  | createContext npid callback flags => exact quiet_createContext
  | activateConnection ctxId peer => exact quiet_activateConnection
  | activateConnectionA ctxId accountId platformType => exact quiet_activateConnectionA
  | deactivateConnection ctxId connId | terminateConnection ctxId connId
  | checkActivation activation =>
    exact quiet_onConnection fun c hc => .refl s
  | deleteContext ctxId => exact .refl s
  | handleHandshakePacket fromAddr fromPort datagram => exact quiet_handleHandshakePacket
  | handleControlPacket fromAddr fromPort packet => exact quiet_handleControlPacket
  | timeoutCallout connId | establishConnection connId peerActivatedHint =>
    exact quiet_onConnection fun c hc => quiet_setConnection _ _
  | processPendingActivations | removeContext ctxId => exact ⟨rfl, id, rfl, rfl, Nat.le_refl _⟩
  | deactivateFaithful connId =>
    refine quiet_onConnection fun c hc => ?_
    split_ifs
    · exact .refl s
    · exact .refl s
    · exact quiet_setConnection _ _
    · exact .refl s
  | closeConnection connId error =>
    refine quiet_onConnection fun c hc => ?_
    split_ifs
    · exact .refl s
    · exact quiet_setConnection _ _
  | dispatchConnectionEvent connId life event error
  | dispatchPeerActivatedEvent connId life => exact absurd trivial hdispatch
  | removeConnection connId => exact quiet_removeConnectionLocked connId
  | startHandshakeInitiator connId | sendHandshake connId datagram
  | stepCallout connId => exact absurd trivial hsend
  | resolveActivation activation =>
    rw [exec, resolveActivation]
    split
    · exact .refl s
    split
    · exact .refl s
    refine quiet_onConnection fun c hc => ?_
    split
    · exact .refl s
    · exact quiet_setConnection _ _

theorem State.stage_quiet (ctx : Context) (dispatch : QueuedDispatch) :
    Quiet s { s.stage ctx dispatch with dispatchQueue := s.dispatchQueue } := by
  rw [State.stage]
  split <;> exact ⟨rfl, id, rfl, rfl, Nat.le_refl _⟩

theorem exec_quiet_of_dispatch (hdispatch : task.IsDispatch) :
    Quiet s { (exec input task s).1 with dispatchQueue := s.dispatchQueue } := by
  cases task with
  | dispatchConnectionEvent connId life event error =>
    rw [exec, dispatchConnectionEvent]
    dsimp only
    split
    · exact .refl s
    split
    · exact .refl s
    split
    · exact State.stage_quiet _ _
    · exact .refl s
  | dispatchPeerActivatedEvent connId life =>
    rw [exec, dispatchPeerActivatedEvent]
    dsimp only
    split
    · exact .refl s
    refine List.foldlRecOn
      (motive := fun s' : State => Quiet s { s' with dispatchQueue := s.dispatchQueue }) _ _
        (.refl s) ?_
    intro s' ih ctxId _
    split
    · exact ih
    split
    · have hstage := State.stage_quiet (s := s') ‹Context› ⟨ctxId, connId, .peerActivated, none,
        ‹ConnectionInfo›.life⟩
      refine ⟨?_, ?_, rfl, ?_, Nat.le_trans ih.lives hstage.lives⟩
      · exact hstage.calloutCtxActive.trans ih.calloutCtxActive
      · exact fun hseed => hstage.connectionIdSeed (ih.connectionIdSeed hseed)
      · exact hstage.sent.trans ih.sent
    · exact ih
  | _ => exact absurd hdispatch id

theorem State.send_quiet (ci : ConnectionInfo) (datagram : Datagram) :
    Quiet s { s.send ci datagram with sent := s.sent } := by
  rw [State.send]
  split <;> exact ⟨rfl, id, rfl, rfl, Nat.le_refl _⟩

theorem exec_quiet_of_send (hsend : task.IsSend) :
    Quiet s { (exec input task s).1 with sent := s.sent } := by
  cases task with
  | stepCallout connId =>
    rw [exec, stepCallout, onConnection]
    split
    · exact .refl s
    dsimp only
    split
    · exact quiet_setConnection _ _
    split
    · exact (quiet_setConnection _ _).trans (State.send_quiet _ _)
    · exact quiet_setConnection _ _
  | startHandshakeInitiator connId =>
    rw [exec, startHandshakeInitiator]
    dsimp only
    split
    · exact .refl s
    · exact (quiet_setConnection _ _).trans (State.send_quiet _ _)
  | sendHandshake connId datagram =>
    rw [exec, onConnection]
    split
    · exact .refl s
    · exact State.send_quiet _ _
  | _ => exact absurd hsend id

theorem exec_dispatchQueue (hdispatch : ¬ task.IsDispatch) :
    (exec input task s).1.dispatchQueue = s.dispatchQueue := by
  by_cases hsend : task.IsSend
  · exact (@exec_quiet_of_send s input task hsend).dispatchQueue
  · exact (exec_quiet hdispatch hsend).dispatchQueue

theorem exec_calloutCtxActive : (exec input task s).1.calloutCtxActive = s.calloutCtxActive := by
  by_cases hdispatch : task.IsDispatch
  · exact (@exec_quiet_of_dispatch s input task hdispatch).calloutCtxActive
  by_cases hsend : task.IsSend
  · exact (@exec_quiet_of_send s input task hsend).calloutCtxActive
  · exact (exec_quiet hdispatch hsend).calloutCtxActive

theorem exec_lives : s.lives ≤ (exec input task s).1.lives := by
  by_cases hdispatch : task.IsDispatch
  · exact (@exec_quiet_of_dispatch s input task hdispatch).lives
  by_cases hsend : task.IsSend
  · exact (@exec_quiet_of_send s input task hsend).lives
  · exact (exec_quiet hdispatch hsend).lives

theorem exec_connectionIdSeed (hseed : s.connectionIdSeed ≤ 0x7fff) :
    (exec input task s).1.connectionIdSeed ≤ 0x7fff := by
  by_cases hdispatch : task.IsDispatch
  · exact (@exec_quiet_of_dispatch s input task hdispatch).connectionIdSeed hseed
  by_cases hsend : task.IsSend
  · exact (@exec_quiet_of_send s input task hsend).connectionIdSeed hseed
  · exact (exec_quiet hdispatch hsend).connectionIdSeed hseed

end Sections

/-- The sections with which a thread starts. -/
def Task.IsStart : Task → Prop
  | .handleHandshakePacket _ _ _ | .handleControlPacket _ _ _ | .timeoutCallout _ | .stepCallout _
  | .processPendingActivations => True
  | task => task.isCall = true

theorem isStart_of_isEntry {number : ℕ} {task : Task} (h : isEntry number task = true) :
    task.IsStart := by
  rcases number with _ | _ | _ | number <;> cases task <;> trivial

/-! ## Ids -/

theorem Change.sameRecord {s : State} {input : Input} {task : Task} {c' : ConnectionInfo}
    {tasks : List Task} (h : Change s input id task c c' tasks) : c.SameRecord c' := by
  cases h with
  | offer => exact (c.received_sameRecord _).trans (ConnectionInfo.offered_sameRecord _ _ _ _ _)
  | accept => exact (c.received_sameRecord _).trans (ConnectionInfo.accepted_sameRecord _ _ _ _ _)
  | check => exact (c.received_sameRecord _).trans (ConnectionInfo.checked_sameRecord _)
  | request => exact c.requested_sameRecord _ _ _ _
  | step => exact c.stepFired_sameRecord _ _
  | establish => exact c.establish_sameRecord _ _ _
  | start => exact c.startHandshake_sameRecord _
  | _ => exact ⟨rfl, rfl, rfl, rfl, rfl⟩

/-- The ids of the records are their keys, and are small. -/
structure State.WellFormed (s : State) : Prop where
  calloutCtxActive : s.calloutCtxActive = true
  connectionIdSeed : s.connectionIdSeed ≤ 0x7fff
  connId : ∀ id c, s.connections id = some c → c.connId = id
  bounds : ∀ id c, s.connections id = some c → 1 ≤ id ∧ id ≤ 0x7fff

theorem State.WellFormed.zero {s : State} (h : s.WellFormed) : s.connections 0 = none := by
  cases hc : s.connections 0 with
  | none => rfl
  | some c => exact absurd (h.bounds 0 c hc).1 (by decide)

theorem Creation.connId_eq {s : State} {input : Input} {task : Task} {tasks : List Task}
    (h : Creation s input id task c tasks) : c.connId = id := by
  cases h with
  | activate => rfl
  | activateA => rfl
  | answer => exact (ConnectionInfo.requested_sameRecord _ _ _ _ _).connId

theorem State.WellFormed.exec {s : State} {input : Input} {task : Task} (h : s.WellFormed)
    (hallowed : Allowed s input task) : (Np.exec input task s).1.WellFormed where
  calloutCtxActive := exec_calloutCtxActive.trans h.calloutCtxActive
  connectionIdSeed := exec_connectionIdSeed h.connectionIdSeed
  connId id c hc := by
    obtain hsame | ⟨old, hbefore, hchange⟩ | ⟨_, hcreation⟩ := exec_cases hallowed h.zero hc
    · exact h.connId id c hsame
    · exact hchange.sameRecord.connId.trans (h.connId id _ hbefore)
    · exact hcreation.connId_eq
  bounds id c hc := by
    obtain hsame | ⟨old, hbefore, -⟩ | ⟨hnew, -⟩ := exec_cases hallowed h.zero hc
    · exact h.bounds id c hsame
    · exact h.bounds id old hbefore
    · exact hnew.bounds h.connectionIdSeed

theorem State.wellFormed_initial (seed : Fin 0x8000) (lastContext : Fin 9) :
    (State.initial seed lastContext).WellFormed where
  calloutCtxActive := rfl
  connectionIdSeed := Nat.le_of_lt_succ seed.isLt
  connId id c hc := by cases hc
  bounds id c hc := by cases hc

theorem wellFormed_of_reachable {seed : Fin 0x8000}
    (h : signaling.Reachable ok (State.initial seed lastContext) config) :
    config.state.WellFormed :=
  h.state_invariant (State.wellFormed_initial seed lastContext)
    fun _ _ _ _ hallowed _ hstate => hstate.exec hallowed

/-- A property of single records that holds of those that sections create, and that their changes
keep. -/
theorem records_of_reachable {seed : Fin 0x8000} {P : ConnectionInfo → Prop}
    (hchange : ∀ {s held input task id c c' tasks}, ok s held input task →
      s.connections id = some c → P c → Change s input id task c c' tasks → P c')
    (hcreation : ∀ {s held input task id c tasks}, ok s held input task →
      Creation s input id task c tasks → P c)
    (h : signaling.Reachable ok (State.initial seed lastContext) config) :
    ∀ id c, config.state.connections id = some c → P c := by
  have hboth : config.state.WellFormed ∧ ∀ id c, config.state.connections id = some c → P c := by
    refine h.state_invariant (P := fun s => s.WellFormed ∧ ∀ id c, s.connections id = some c →
      P c) ?_ ?_
    · exact ⟨State.wellFormed_initial seed lastContext, fun id c hc => by cases hc⟩
    · intro s held task input hallowed hok ⟨hwf, hrecords⟩
      refine ⟨hwf.exec hallowed, fun id c hc => ?_⟩
      obtain hsame | ⟨old, hbefore, hc⟩ | ⟨_, hc⟩ := exec_cases hallowed hwf.zero hc
      · exact hrecords id c hsame
      · exact hchange hok hbefore (hrecords id _ hbefore) hc
      · exact hcreation hok hc
  exact hboth.2

/-! ## What follows a section -/

/-- The events that a connection has once. -/
def Event.isSingle : Event → Bool
  | .dead | .established | .mutualActivated => true
  | .peerActivated | .peerDeactivated => false

/-- The section announces an event that a connection has once. -/
def Task.announces : Task → Bool
  | .dispatchConnectionEvent _ _ event _ => event.isSingle
  | _ => false

/-- The sections that send no answer and establish nothing. -/
def Task.IsInternal : Task → Prop
  | .sendHandshake _ _ | .establishConnection _ _ | .handleHandshakePacket _ _ _ => False
  | _ => True

/-- Why a section follows another. -/
inductive Follows (s : State) (task : Task) : Task → Prop
  | send {id : ℤ} {fromAddr fromPort : ℕ} {datagram answer : Datagram} :
    task = .handleHandshakePacket fromAddr fromPort datagram →
    (answer.packet.kind = .checkAck → datagram.packet.kind = .check ∧
      answer.answers = datagram.life ∧ answer.packet.nonce = datagram.packet.nonce) →
    Follows s task (.sendHandshake id answer)
  | acknowledged {id : ℤ} {hint : Bool} {fromAddr fromPort : ℕ} {datagram : Datagram} :
    task = .handleHandshakePacket fromAddr fromPort datagram → datagram.packet.kind = .checkAck →
    Follows s task (.establishConnection id hint)
  | again {id : ℤ} {hint : Bool} {c : ConnectionInfo} :
    s.connections id = some c → c.state = .established →
      Follows s task (.establishConnection id hint)
  | internal {task' : Task} : task'.IsInternal → Follows s task task'

/-- The section may follow; only a close and an establishment have such an event announced. -/
def Emits (s : State) (task t : Task) : Prop :=
  Follows s task t ∧ (t.announces = true →
    (∃ id hint, task = .establishConnection id hint) ∨ ∃ id error, task = .closeConnection id error)

section Emits

variable {s : State} {input : Input} {task t₀ : Task} {connId : ℤ}

theorem emits_nil : ∀ t ∈ ([] : List Task), Emits s task t := fun t ht => by cases ht

theorem Follows.emits {t : Task} (ht : Follows s task t) (hquiet : t.announces = false) :
    Emits s task t :=
  ⟨ht, fun h => absurd h (ne_true_of_eq_false hquiet)⟩

theorem emits_on {f : ConnectionInfo → State × List Task}
    (hf : ∀ c, s.connections connId = some c → ∀ t ∈ (f c).2, Emits s task t) :
    ∀ t ∈ (onConnection s connId f).2, Emits s task t := by
  rw [onConnection]
  split
  · exact emits_nil
  · exact hf _ ‹_›

theorem emits_one (hquiet : t₀.announces = false) (ht₀ : Follows s task t₀) :
    ∀ t ∈ [t₀], Emits s task t := by
  intro t ht
  rw [List.mem_singleton.mp ht]
  exact ht₀.emits hquiet

theorem emits_if {p : Prop} [Decidable p] (hquiet : t₀.announces = false)
    (ht₀ : p → Follows s task t₀) : ∀ t ∈ if p then [t₀] else [], Emits s task t := by
  split
  · exact emits_one hquiet (ht₀ ‹_›)
  · exact emits_nil

theorem handleControlPacket_emits {fromAddr fromPort : ℕ} {packet : Control} :
    ∀ t ∈ (handleControlPacket s input fromAddr fromPort packet).2, Emits s task t := by
  rw [handleControlPacket]
  split
  · split
    · rw [answerRequest]
      split
      · exact emits_nil
      split
      · exact emits_nil
      · rw [requestConnection]
        dsimp only
        split
        · exact emits_one rfl (.internal trivial)
        · exact emits_nil
    · exact emits_on fun c hc => emits_if rfl fun _ => .internal trivial
  · exact emits_on fun c hc => emits_nil
  · exact emits_on fun c hc => emits_if rfl fun hstate => .again hc hstate
  · refine emits_on fun c hc => ?_
    dsimp only
    split <;> exact emits_one rfl (.internal trivial)
  · exact emits_nil

theorem exec_emits : ∀ t ∈ (exec input task s).2, Emits s task t := by
  cases task with
  | createContext npid callback flags | activateConnectionA ctxId accountId platformType
  | dispatchConnectionEvent connId life event error | dispatchPeerActivatedEvent connId life
  | removeConnection connId
  | startHandshakeInitiator connId | removeContext ctxId => exact emits_nil
  | activateConnection ctxId peer =>
    rw [exec, activateConnection]
    split
    · exact emits_nil
    dsimp only
    split
    · rw [activatePeer]
      split
      · exact emits_nil
      split
      · exact emits_nil
      rename_i hc
      split
      · exact emits_nil
      · exact emits_if rfl fun hstate => .again hc hstate
    · exact emits_nil
  | deactivateConnection ctxId connId | timeoutCallout connId =>
    exact emits_on fun c hc => emits_if rfl fun _ => .internal trivial
  | terminateConnection ctxId connId =>
    refine emits_on fun c hc => ?_
    dsimp only
    split
    · intro t ht
      rcases List.mem_pair.mp ht with rfl | rfl <;> exact Follows.emits (.internal trivial) rfl
    · exact emits_nil
  | deleteContext ctxId =>
    intro t ht
    rcases List.mem_append.mp ht with ht | ht
    · obtain ⟨id, -, rfl⟩ := List.mem_map.mp ht
      exact Follows.emits (.internal trivial) rfl
    · rw [List.mem_singleton.mp ht]
      exact Follows.emits (.internal trivial) rfl
  | handleHandshakePacket fromAddr fromPort datagram =>
    refine emits_on fun c hc => ?_
    dsimp only
    split
    · refine emits_if rfl fun _ => .send rfl fun hkind => ?_
      cases hkind
    · refine emits_if rfl fun _ => .send rfl fun hkind => ?_
      cases hkind
    · rename_i hkind
      exact emits_one rfl (.send rfl fun _ => ⟨hkind, rfl, rfl⟩)
    · rename_i hkind
      exact emits_if rfl fun _ => .acknowledged rfl hkind
    · exact emits_nil
  | handleControlPacket fromAddr fromPort packet => exact handleControlPacket_emits
  | stepCallout connId =>
    refine emits_on fun c hc => ?_
    dsimp only
    split
    · exact emits_one rfl (.internal trivial)
    split <;> exact emits_nil
  | processPendingActivations =>
    intro t ht
    obtain ⟨activation, -, rfl⟩ := List.mem_map.mp ht
    exact Follows.emits (.internal trivial) rfl
  | deactivateFaithful connId =>
    refine emits_on fun c hc => ?_
    split_ifs
    · exact emits_nil
    · exact emits_nil
    · exact emits_nil
    · exact emits_one rfl (.internal trivial)
  | closeConnection connId error =>
    refine emits_on fun c hc => ?_
    split_ifs
    · exact emits_nil
    · intro t ht
      rcases List.mem_pair.mp ht with rfl | rfl <;>
        exact ⟨.internal trivial, fun _ => .inr ⟨_, _, rfl⟩⟩
  | establishConnection connId peerActivatedHint =>
    refine emits_on fun c hc t ht => ?_
    simp only [List.mem_append] at ht
    rcases ht with (ht | ht) | ht
    all_goals
      split at ht
      · rw [List.mem_singleton.mp ht]
        exact ⟨.internal trivial, fun _ => .inl ⟨_, _, rfl⟩⟩
      · cases ht
  | sendHandshake connId datagram => exact emits_on fun c hc => emits_nil
  | checkActivation activation =>
    refine emits_on fun c hc => ?_
    dsimp only
    split
    · exact emits_nil
    · exact emits_one rfl (.internal trivial)
  | resolveActivation activation =>
    rw [exec, resolveActivation]
    split
    · exact emits_nil
    split
    · exact emits_nil
    refine emits_on fun c hc => ?_
    split
    · exact emits_nil
    · exact emits_one rfl (.internal trivial)

end Emits

end PS4Droid.Np
