import PS4Droid.Foundations.Sections
import PS4Droid.Np.Connection

/-!
# The signaling library

The sections of `np_signaling_state.cpp` and `np_signaling.cpp` that hold a `SignalingMutexGuard`. A
section is a `Task`; the calls of the guest, the packets, the callouts and the pending activations
run several of them. Return codes and the samples of the round trip time are left out, the control
packets that a section sends are given apart from it (`controlsSent`); the library is initialised
all the time.
-/

namespace PS4Droid.Np

/-! ## The state -/

structure Context where
  callback : Bool
  active : Bool
  flags : ℕ
  accountId : ℕ
  platformType : ℕ
  compiledSdkVersion : ℕ
  ownerNpid : NpId
  ownerOnlineId : OnlineId
  activateBudgetUs : ℤ
  activateLastUpdateUs : ℤ

def activateCooldownUs : ℤ := 6000000

def activateBudgetMaxUs : ℤ := 600000000

/-- `ConsumeActivationBudgetLocked`. -/
def Context.consumeActivationBudget (ctx : Context) (nowUs : ℤ) : Bool × Context :=
  let budget :=
    if ctx.activateLastUpdateUs = 0 then activateBudgetMaxUs
    else
      min activateBudgetMaxUs (ctx.activateBudgetUs + max 0 (nowUs - ctx.activateLastUpdateUs))
  let ctx := { ctx with activateLastUpdateUs := nowUs, activateBudgetUs := budget }
  if budget < activateCooldownUs then (false, ctx)
  else (true, { ctx with activateBudgetUs := budget - activateCooldownUs })

/-- `ConsumeActivationBudgetGatedLocked`. -/
def Context.consumeActivationBudgetGated (ctx : Context) (nowUs : ℤ) : Bool × Context :=
  if ctx.compiledSdkVersion ≤ 0x16fffff then (true, ctx) else ctx.consumeActivationBudget nowUs

/-- An event that was staged. For the proofs it carries the connection that it is about. -/
structure QueuedDispatch where
  ctxId : ℤ
  connId : ℤ
  event : Event
  error : Option CloseError
  life : ℕ
  deriving DecidableEq

structure PendingActivation where
  connId : ℤ
  peerOnlineId : List UInt8
  deriving DecidableEq

/-- The global variables. `dispatchQueue` keeps every event that was put into `g_dispatch_queue`,
and `sent` every handshake. -/
structure State where
  contexts : ℤ → Option Context
  connections : ℤ → Option ConnectionInfo
  npidToConn : ℤ × NpId → Option ℤ
  pendingActivations : List PendingActivation
  connectionIdSeed : ℕ
  lastAssignedContextId : ℕ
  calloutCtxActive : Bool
  dispatchQueue : List QueuedDispatch
  sent : List Datagram
  lives : ℕ

/-- After `sceNpSignalingInitialize`. -/
def State.initial (seed : Fin 0x8000) (lastContext : Fin 9) : State where
  contexts _ := none
  connections _ := none
  npidToConn _ := none
  pendingActivations := []
  connectionIdSeed := seed
  lastAssignedContextId := lastContext
  calloutCtxActive := true
  dispatchQueue := []
  sent := []
  lives := 0

/-- What a section takes from outside: the clock, the random number, the resolved peer, and what the
loops over the hash maps find. -/
structure Input where
  nowUs : ℤ
  externalIp : ℕ
  random : ℕ
  sdkVersion : ℕ
  peer : Option (ℕ × ℕ)
  connection : ℤ
  context : ℤ
  ids : List ℤ

/-! ## Sections -/

inductive Task where
  | createContext (npid : NpId) (callback : Bool) (flags : ℕ)
  | activateConnection (ctxId : ℤ) (peerNpId : NpId)
  | activateConnectionA (ctxId : ℤ) (accountId platformType : ℕ)
  | deactivateConnection (ctxId connId : ℤ)
  | terminateConnection (ctxId connId : ℤ)
  | deleteContext (ctxId : ℤ)
  | handleHandshakePacket (fromAddr fromPort : ℕ) (datagram : Datagram)
  | handleControlPacket (fromAddr fromPort : ℕ) (packet : Control)
  | timeoutCallout (connId : ℤ)
  | stepCallout (connId : ℤ)
  | processPendingActivations
  | deactivateFaithful (connId : ℤ)
  | closeConnection (connId : ℤ) (error : CloseError)
  | dispatchConnectionEvent (connId : ℤ) (life : ℕ) (event : Event) (error : Option CloseError)
  | dispatchPeerActivatedEvent (connId : ℤ) (life : ℕ)
  | removeConnection (connId : ℤ)
  | establishConnection (connId : ℤ) (peerActivatedHint : Bool)
  | startHandshakeInitiator (connId : ℤ)
  | sendHandshake (connId : ℤ) (datagram : Datagram)
  | checkActivation (activation : PendingActivation)
  | resolveActivation (activation : PendingActivation)
  | removeContext (ctxId : ℤ)

namespace State

variable (s : State)

def setConnection (connId : ℤ) (ci : ConnectionInfo) : State :=
  { s with connections := Function.update s.connections connId (some ci) }

/-- The loop of `AllocateConnectionIdLocked`. -/
def allocateLoop (taken : ℤ → Bool) : ℕ → ℕ → Option ℤ × ℕ
  | 0, seed => (none, seed)
  | tries + 1, seed =>
    let next := if seed + 1 > 0x7fff then 1 else seed + 1
    if seed ≠ 0 ∧ ¬ taken seed then (some seed, next) else allocateLoop taken tries next

/-- The seed, drawn at the first use. -/
def drawnSeed (random : ℕ) : ℕ :=
  if s.connectionIdSeed = 0 then
    let seed := (random / 0x4001) % 0x8000
    if seed = 0 then 1 else seed
  else s.connectionIdSeed

def allocateConnectionId (random : ℕ) : Option ℤ × State :=
  let found := allocateLoop (fun id => (s.connections id).isSome) 0x10000 (s.drawnSeed random)
  (found.1, { s with connectionIdSeed := found.2 })

/-- `AllocateContextIdLocked`: the first free one of eight numbers. -/
def allocateContextId : Option ℤ × State :=
  let candidates := (List.range 8).map fun i => (s.lastAssignedContextId + i) % 8 + 1
  match candidates.find? fun (id : ℕ) => (s.contexts id).isNone with
  | none => (none, s)
  | some id => (some id, { s with lastAssignedContextId := id })

def removeConnectionLocked (connId : ℤ) : State :=
  match s.connections connId with
  | none => s
  | some ci =>
    { s with
      connections := Function.update s.connections connId none
      npidToConn :=
        if s.npidToConn (ci.ctxId, ci.npid) = some connId then
          Function.update s.npidToConn (ci.ctxId, ci.npid) none
        else s.npidToConn }

/-- `StageBasicCallbackLocked`. -/
def stage (ctx : Context) (dispatch : QueuedDispatch) : State :=
  if ctx.callback then { s with dispatchQueue := s.dispatchQueue ++ [dispatch] } else s

/-- `MakeHandshakeLocked`. -/
def makeHandshake (input : Input) (ci : ConnectionInfo) (kind : HandshakeKind) (nonce : ℤ) :
    Handshake where
  kind := kind
  onlineIdFrom :=
    ((s.contexts ci.ctxId).map fun ctx => ctx.ownerOnlineId.data).getD (Vector.replicate 16 0)
  onlineIdTo := ci.onlineId.data
  fromConnId := ci.connId
  toConnId := 0
  mappedAddr := input.externalIp
  nonce := nonce

/-- `SendHandshakeLocked`. -/
def send (ci : ConnectionInfo) (datagram : Datagram) : State :=
  if ci.addr = 0 ∨ ci.port = 0 then s else { s with sent := s.sent ++ [datagram] }

def isContextValid (ctxId : ℤ) : Bool :=
  match s.contexts ctxId with
  | none => false
  | some ctx => ctx.active

/-- A new record, with its entry in `g_npid_to_conn` if it has one. -/
def create (connId : ℤ) (ci : ConnectionInfo) (key : Option (ℤ × NpId)) : State :=
  { s with
    connections := Function.update s.connections connId (some ci)
    npidToConn :=
      match key with
      | none => s.npidToConn
      | some key => Function.update s.npidToConn key (some connId)
    lives := s.lives + 1 }

end State

/-- A section on an existing connection. -/
def onConnection (s : State) (connId : ℤ) (f : ConnectionInfo → State × List Task) :
    State × List Task :=
  match s.connections connId with
  | none => (s, [])
  | some ci => f ci

/-- `sceNpSignalingCreateContext` and `sceNpSignalingCreateContextA`. -/
def createContext (s : State) (input : Input) (npid : NpId) (callback : Bool) (flags : ℕ) : State :=
  match s.allocateContextId with
  | (none, s) => s
  | (some ctxId, s) =>
    { s with
      contexts := Function.update s.contexts ctxId (some {
        callback := callback
        active := true
        flags := flags
        accountId := 0
        platformType := 0
        compiledSdkVersion := input.sdkVersion
        ownerNpid := npid
        ownerOnlineId := npid.handle
        activateBudgetUs := activateBudgetMaxUs
        activateLastUpdateUs := input.nowUs }) }

/-- The connection that `sceNpSignalingActivateConnection` makes. -/
def activatedConnection (connId ctxId : ℤ) (life : ℕ) (npid : NpId) (active : Bool) :
    ConnectionInfo :=
  { connId := connId
    ctxId := ctxId
    life := life
    state := .sendingOffer
    status := .pending
    isInitiator := true
    locallyActivated := true
    npid := npid
    onlineId := npid.handle
    timeoutCalloutArmed := active }

/-- A new connection, with its timeout and its pending activation. -/
def activateNew (s : State) (input : Input) (ctxId : ℤ) (peer : NpId) : State :=
  match s.allocateConnectionId input.random with
  | (none, s) => s
  | (some connId, s) =>
    let ci := activatedConnection connId ctxId s.lives peer s.calloutCtxActive
    let s := s.create connId ci (some (ctxId, peer))
    { s with pendingActivations := s.pendingActivations ++ [⟨connId, peer.handle.text⟩] }

/-- A new connection to the peer, or the one that is there and is not inactive. -/
def activatePeer (s : State) (input : Input) (ctxId : ℤ) (peer : NpId) : State × List Task :=
  match s.npidToConn (ctxId, peer) with
  | none => (activateNew s input ctxId peer, [])
  | some connId =>
    match s.connections connId with
    | none => (activateNew s input ctxId peer, [])
    | some ci =>
      if ci.state = .inactive then (activateNew (s.removeConnectionLocked connId) input ctxId peer,
        [])
      else
        (s.setConnection connId (reactivated ci),
          if ci.state = .established then [.establishConnection connId false] else [])
where
  reactivated (ci : ConnectionInfo) : ConnectionInfo :=
    ConnectionInfo.clearLingerAndTimeout { ci with locallyActivated := true }

/-- The context after an activation to which it agrees. -/
def activationContext (s : State) (input : Input) (ctxId : ℤ) (peer : NpId) :
    Option (Bool × Context) :=
  if peer.handle.isValid then
    (s.contexts ctxId).bind fun ctx =>
      if ctx.active = false ∨ ctx.ownerNpid = peer then none
      else some (ctx.consumeActivationBudgetGated input.nowUs)
  else none

/-- `sceNpSignalingActivateConnection`. -/
def activateConnection (s : State) (input : Input) (ctxId : ℤ) (peer : NpId) : State × List Task :=
  match activationContext s input ctxId peer with
  | none => (s, [])
  | some (granted, ctx) =>
    let s := { s with contexts := Function.update s.contexts ctxId (some ctx) }
    if granted then activatePeer s input ctxId peer else (s, [])

/-- The context after an activation of an account to which it agrees. -/
def activationContextA (s : State) (input : Input) (ctxId : ℤ) (accountId platformType : ℕ) :
    Option (Bool × Context) :=
  (s.contexts ctxId).bind fun ctx =>
    if accountId = 0 ∨ platformType = 0 ∨ ctx.active = false ∨
        ctx.flags &&& 4 ≠ 0 ∧ ctx.accountId = accountId ∧ ctx.platformType = platformType then none
    else some (ctx.consumeActivationBudgetGated input.nowUs)

/-- `sceNpSignalingActivateConnectionA`: the connection has the status of a pending one. -/
def activateConnectionA (s : State) (input : Input) (ctxId : ℤ) (accountId platformType : ℕ) :
    State :=
  match activationContextA s input ctxId accountId platformType with
  | none => s
  | some (granted, ctx) =>
    let s := { s with contexts := Function.update s.contexts ctxId (some ctx) }
    if granted then
      match s.allocateConnectionId input.random with
      | (none, s) => s
      | (some connId, s) =>
        s.create connId { connId := connId, ctxId := ctxId, life := s.lives, status := .pending }
          none
    else s

def handleHandshakePacket (s : State) (input : Input) (fromAddr fromPort : ℕ)
    (datagram : Datagram) :
    State × List Task :=
  let packet := datagram.packet
  let connId := input.connection
  onConnection s connId fun ci =>
    let ci := ci.received input.nowUs
    match packet.kind with
    | .offer =>
      let ci' := ci.offered s.calloutCtxActive fromAddr fromPort packet.mappedAddr
      (s.setConnection connId ci',
        if ci.state ≠ .established then
          [.sendHandshake connId ⟨s.makeHandshake input ci' .accept 0, ci.life, datagram.life⟩]
        else [])
    | .accept =>
      let ci' := ci.accepted s.calloutCtxActive fromAddr fromPort packet.mappedAddr
      (s.setConnection connId ci',
        if ci.expectsAccept then
          [.sendHandshake connId ⟨s.makeHandshake input ci' .check input.nowUs, ci.life,
            datagram.life⟩]
        else [])
    | .check =>
      (s.setConnection connId ci.checked,
        [.sendHandshake connId ⟨s.makeHandshake input ci .checkAck packet.nonce, ci.life,
          datagram.life⟩])
    | .checkAck =>
      (s.setConnection connId ci,
        if ci.state ≠ .established then [.establishConnection connId true] else [])
    | .other => (s.setConnection connId ci, [])

/-- The connection that an `ActivationRequest` makes. -/
def answererConnection (connId ctxId : ℤ) (life : ℕ) (onlineIdFrom : Vector UInt8 16) :
    ConnectionInfo :=
  { connId := connId
    ctxId := ctxId
    life := life
    onlineId := { OnlineId.zero with data := onlineIdFrom }
    npid := { NpId.zero with handle := { OnlineId.zero with data := onlineIdFrom } } }

/-- The end of an `ActivationRequest`. -/
def requestConnection (s : State) (fromAddr fromPort : ℕ) (packet : Control) (connId : ℤ)
    (ci : ConnectionInfo) : State × List Task :=
  (s.setConnection connId (ci.requested s.calloutCtxActive fromAddr fromPort packet.mappedAddr),
    if ci.state = .inactive then [.startHandshakeInitiator connId] else [])

/-- An `ActivationRequest` from a peer without a connection. -/
def answerRequest (s : State) (input : Input) (fromAddr fromPort : ℕ) (packet : Control) :
    State × List Task :=
  if input.context = 0 then (s, [])
  else
    match s.allocateConnectionId input.random with
    | (none, s) => (s, [])
    | (some connId, s) =>
      let ci := answererConnection connId input.context s.lives packet.onlineIdFrom
      requestConnection (s.create connId ci (some (input.context, ci.npid))) fromAddr fromPort
        packet
        connId ci

def handleControlPacket (s : State) (input : Input) (fromAddr fromPort : ℕ) (packet : Control) :
    State × List Task :=
  let connId := input.connection
  match packet.kind with
  | .activationRequest =>
    if connId = 0 then answerRequest s input fromAddr fromPort packet
    else onConnection s connId (requestConnection s fromAddr fromPort packet connId)
  | .activationAck =>
    onConnection s connId fun ci => (s.setConnection connId (ci.acknowledged packet.mappedAddr), [])
  | .established =>
    onConnection s connId fun ci =>
      (s.setConnection connId { ci with peerEstablished := true },
        if ci.state = .established then [.establishConnection connId false] else [])
  | .close =>
    onConnection s connId fun ci =>
      (s, if packet.reason = .deactivate ∧ ci.state = .established then
        [.dispatchConnectionEvent connId ci.life .peerDeactivated none]
      else [.closeConnection connId .terminatedByPeer])
  | .other => (s, [])

/-- The section of `CloseConnectionAndDispatchDead`. -/
def closeConnection (s : State) (connId : ℤ) (error : CloseError) : State × List Task :=
  onConnection s connId fun ci =>
    if ci.state = .inactive ∨ ci.deadFired then (s, [])
    else
      (s.setConnection connId ci.close,
        [.dispatchConnectionEvent connId ci.life .dead (some error), .removeConnection connId])

def dispatchConnectionEvent (s : State) (connId : ℤ) (event : Event) (error : Option CloseError) :
    State :=
  match s.connections connId with
  | none => s
  | some ci =>
    match s.contexts ci.ctxId with
    | none => s
    | some ctx => if ctx.active then s.stage ctx ⟨ci.ctxId, connId, event, error, ci.life⟩ else s

/-- `DispatchPeerActivatedEvent`: to the other contexts of the same owner. -/
def dispatchPeerActivatedEvent (s : State) (input : Input) (connId : ℤ) : State :=
  match s.connections connId with
  | none => s
  | some ci =>
    let owner := ((s.contexts ci.ctxId).map Context.ownerNpid).getD .zero
    input.ids.foldl (fun s ctxId =>
      match s.contexts ctxId with
      | none => s
      | some ctx =>
        if ctxId ≠ ci.ctxId ∧ ctx.active ∧ ctx.ownerNpid = owner then
          s.stage ctx ⟨ctxId, connId, .peerActivated, none, ci.life⟩
        else s) s

/-- The section of `EstablishConnection`. -/
def establishConnection (s : State) (input : Input) (connId : ℤ) (peerActivatedHint : Bool) :
    State × List Task :=
  onConnection s connId fun ci =>
    let entered := (ci.hint peerActivatedHint).enterEstablished s.calloutCtxActive input.nowUs
    (s.setConnection connId (ci.establish s.calloutCtxActive input.nowUs peerActivatedHint),
      (if ci.firesPeerActivated then [.dispatchPeerActivatedEvent connId ci.life] else []) ++
      (if entered.firesEstablished then
        [.dispatchConnectionEvent connId ci.life .established none] else []) ++
      (if entered.firesMutual then
        [.dispatchConnectionEvent connId ci.life .mutualActivated none] else []))

/-- The section of `DeactivateConnectionFaithful`. -/
def deactivateFaithful (s : State) (connId : ℤ) : State × List Task :=
  onConnection s connId fun ci =>
    if ci.deadFired then (s, [])
    else if ci.state = .established then
      if ci.deactivateLingering then (s, [])
      else (s.setConnection connId (ci.linger s.calloutCtxActive), [])
    else (s, [.closeConnection connId .terminatedByMyself])

def startHandshakeInitiator (s : State) (input : Input) (connId : ℤ) : State :=
  match s.connections connId with
  | none => s
  | some ci =>
    let ci := ci.startHandshake s.calloutCtxActive
    (s.setConnection connId ci).send ci ⟨s.makeHandshake input ci .offer 0, ci.life, 0⟩

/-- The section of `StepCalloutHandler`. -/
def stepCallout (s : State) (input : Input) (connId : ℤ) : State × List Task :=
  onConnection s connId fun ci =>
    let ci' := ci.stepFired s.calloutCtxActive input.nowUs
    if ci.isWatched && ci.isSilent input.nowUs then
      (s.setConnection connId ci', [.closeConnection connId .timeout])
    else if ci.isWatched || ci.isHandshaking then
      let nonce := if ci.stepKind = .check then input.nowUs else 0
      ((s.setConnection connId ci').send ci ⟨s.makeHandshake input ci ci.stepKind nonce, ci.life,
        0⟩, [])
    else (s.setConnection connId ci', [])

/-- The second section for a pending activation, after `ResolvePeer`. -/
def resolveActivation (s : State) (input : Input) (activation : PendingActivation) :
    State × List Task :=
  match input.peer with
  | none => (s, [])
  | some (addr, port) =>
    if addr = 0 ∨ port = 0 then (s, [])
    else
      onConnection s activation.connId fun ci =>
        if ci.state = .inactive then (s, [])
        else
          (s.setConnection activation.connId { ci with addr := addr, port := port },
            [.startHandshakeInitiator activation.connId])

/-- The last section of `sceNpSignalingDeleteContext`. -/
def removeContext (s : State) (ctxId : ℤ) : State :=
  { s with
    contexts := Function.update s.contexts ctxId none
    connections := fun connId =>
      (s.connections connId).bind fun ci => if ci.ctxId = ctxId then none else some ci
    npidToConn := fun key =>
      (s.npidToConn key).bind fun connId =>
        if key.1 = ctxId ∧ ((s.connections connId).map fun ci => (ci.ctxId, ci.npid)) =
          some key then none
        else some connId }

def exec (input : Input) (task : Task) (s : State) : State × List Task :=
  match task with
  | .createContext npid callback flags => (createContext s input npid callback flags, [])
  | .activateConnection ctxId peer => activateConnection s input ctxId peer
  | .activateConnectionA ctxId accountId platformType =>
    (activateConnectionA s input ctxId accountId platformType, [])
  | .deactivateConnection ctxId connId =>
    onConnection s connId fun ci =>
      (s, if s.isContextValid ctxId ∧ ci.ctxId = ctxId then [.deactivateFaithful connId] else [])
  | .terminateConnection ctxId connId =>
    onConnection s connId fun ci =>
      (s, if s.isContextValid ctxId ∧ ci.ctxId = ctxId then
        [.closeConnection connId .terminatedByMyself, .removeConnection connId]
      else [])
  | .deleteContext ctxId =>
    (s, input.ids.map (fun connId => .closeConnection connId .terminatedByPeer) ++
      [.removeContext ctxId])
  | .handleHandshakePacket fromAddr fromPort datagram =>
    handleHandshakePacket s input fromAddr fromPort datagram
  | .handleControlPacket fromAddr fromPort packet =>
      handleControlPacket s input fromAddr fromPort packet
  | .timeoutCallout connId =>
    onConnection s connId fun ci =>
      (s.setConnection connId ci.timeoutFired,
        if ci.state ≠ .established ∨ ci.deactivateLingering then [.closeConnection connId .timeout]
          else [])
  | .stepCallout connId => stepCallout s input connId
  | .processPendingActivations =>
    ({ s with pendingActivations := [] }, s.pendingActivations.map .checkActivation)
  | .deactivateFaithful connId => deactivateFaithful s connId
  | .closeConnection connId error => closeConnection s connId error
  | .dispatchConnectionEvent connId _ event error =>
      (dispatchConnectionEvent s connId event error, [])
  | .dispatchPeerActivatedEvent connId _ => (dispatchPeerActivatedEvent s input connId, [])
  | .removeConnection connId => (s.removeConnectionLocked connId, [])
  | .establishConnection connId peerActivatedHint =>
      establishConnection s input connId peerActivatedHint
  | .startHandshakeInitiator connId => (startHandshakeInitiator s input connId, [])
  | .sendHandshake connId datagram => onConnection s connId fun ci => (s.send ci datagram, [])
  | .checkActivation activation =>
    onConnection s activation.connId fun ci =>
      (s, if ci.state = .inactive then [] else [.resolveActivation activation])
  | .resolveActivation activation => resolveActivation s input activation
  | .removeContext ctxId => (removeContext s ctxId, [])

/-! ## Runs -/

/-- Where the loop over the connections stops for a packet. -/
def FindsPeer (s : State) (fromId : List UInt8) (connId : ℤ) : Prop :=
  (∃ ci, s.connections connId = some ci ∧ ci.matchesPeer fromId) ∨
    connId = 0 ∧ ∀ id ci, s.connections id = some ci → ¬ ci.matchesPeer fromId

/-- Where the loop over the contexts stops for an `ActivationRequest`. -/
def FindsOwner (s : State) (toId : List UInt8) (ctxId : ℤ) : Prop :=
  (∃ ctx, s.contexts ctxId = some ctx ∧ ctx.active ∧ ctx.ownerOnlineId.text = toId) ∨ ctxId = 0

/-- The inputs that a section can have. -/
def Allowed (s : State) (input : Input) : Task → Prop
  | .handleHandshakePacket _ _ datagram =>
    FindsPeer s (textOf datagram.packet.onlineIdFrom) input.connection
  | .handleControlPacket _ _ packet =>
    FindsPeer s (textOf packet.onlineIdFrom) input.connection ∧
      FindsOwner s (textOf packet.onlineIdTo) input.context
  | .deleteContext ctxId =>
    input.ids.Nodup ∧ ∀ connId, connId ∈ input.ids ↔
      ∃ ci, s.connections connId = some ci ∧ ci.ctxId = ctxId ∧ ci.status ≠ .inactive
  | .dispatchPeerActivatedEvent _ _ =>
    input.ids.Nodup ∧ ∀ ctxId, ctxId ∈ input.ids ↔ (s.contexts ctxId).isSome
  | _ => True

/-- The calls of the guest. -/
def Task.isCall : Task → Bool
  | .createContext _ _ _ | .activateConnection _ _ | .activateConnectionA _ _ _
  | .deactivateConnection _ _ | .terminateConnection _ _ | .deleteContext _ => true
  | _ => false

/-- The threads: the first receives packets, the second runs callouts, the third dispatches events
and runs the callbacks of the guest, and the others are threads of the guest. -/
def isEntry (number : ℕ) (task : Task) : Bool :=
  match number, task with
  | 0, .handleHandshakePacket _ _ _ | 0, .handleControlPacket _ _ _ => true
  | 1, .timeoutCallout _ | 1, .stepCallout _ => true
  | 2, .processPendingActivations => true
  | _ + 2, task => task.isCall
  | _, _ => false

def signaling : Sections.Machine State Task Input where
  exec := exec
  allowed := Allowed
  entry number task := isEntry number task

/-! ## Runs given move by move -/

/-- A test for the inputs of a section; not all inputs that it can have pass. -/
def allowedNow (s : State) (input : Input) : Task → Bool
  | .handleHandshakePacket _ _ datagram =>
    (s.connections input.connection).any fun ci =>
      ci.matchesPeer (textOf datagram.packet.onlineIdFrom)
  | .handleControlPacket _ _ packet =>
    ((s.connections input.connection).any fun ci => ci.matchesPeer (textOf packet.onlineIdFrom)) &&
      input.context == 0
  | .deleteContext _ | .dispatchPeerActivatedEvent _ _ => false
  | _ => true

def checkMove (okNow : State → List Task → Input → Task → Bool)
    (config : Sections.Config State Task) :
    Sections.Move Task Input → Bool
  | .start thread task =>
    match config.threads[thread]? with
    | some [] => isEntry thread task
    | _ => false
  | .run thread input =>
    match config.threads[thread]? with
    | some (task :: _) =>
        allowedNow config.state input task && okNow config.state config.held input task
    | _ => false

/-- Sixteen bytes that start with three letters. -/
def sampleName (letter : UInt8) : Vector UInt8 16 :=
  #v[letter, 98, 99, 0, 0, 0, 0, 0, 0, 0, 0, 0, 0, 0, 0, 0]

def sampleNpId (letter opt : UInt8) : NpId :=
  { NpId.zero with handle := { OnlineId.zero with data := sampleName letter }, opt :=
    Vector.replicate 8 opt }

def sampleInput : Input where
  nowUs := 1
  externalIp := 0
  random := 0
  sdkVersion := 0
  peer := some (1, 1)
  connection := 1
  context := 0
  ids := []

/-- A handshake from the peer `abc`. -/
def sampleDatagram (kind : HandshakeKind) : Datagram where
  packet := ⟨kind, sampleName 97, sampleName 98, 1, 0, 0, 1⟩
  life := 0
  answers := 0

/-- A thread starts a call and runs some of its sections. -/
def sampleCall (thread : ℕ) (task : Task) (sections : ℕ) : List (Sections.Move Task Input) :=
  .start thread task :: List.replicate sections (.run thread sampleInput)

/-- A context, and a connection to the peer `abc`. -/
def sampleActivated : List (Sections.Move Task Input) :=
  sampleCall 3 (.createContext (sampleNpId 98 0) true 0) 1 ++
    sampleCall 3 (.activateConnection 1 (sampleNpId 97 0)) 1

/-- The peer has its own handshake with this connection. -/
def sampleHandshake : List (Sections.Move Task Input) :=
  sampleCall 0 (.handleHandshakePacket 1 1 (sampleDatagram .offer)) 2 ++
    sampleCall 0 (.handleHandshakePacket 1 1 (sampleDatagram .check)) 2 ++
    sampleCall 1 (.stepCallout 1) 1 ++
    sampleCall 0 (.handleHandshakePacket 1 1 (sampleDatagram .checkAck)) 3

theorem findsPeer_of_any {s : State} {fromId : List UInt8} {connId : ℤ}
    (h : ((s.connections connId).any fun ci => ci.matchesPeer fromId) = true) :
    FindsPeer s fromId connId := by
  cases hci : s.connections connId with
  | none =>
    rw [hci] at h
    cases h
  | some ci =>
    rw [hci] at h
    exact .inl ⟨ci, hci, h⟩

theorem allowed_of_allowedNow {s : State} {input : Input} {task : Task}
    (h : allowedNow s input task = true) :
    Allowed s input task := by
  cases task with
  | handleHandshakePacket fromAddr fromPort datagram => exact findsPeer_of_any h
  | handleControlPacket fromAddr fromPort packet =>
    rw [allowedNow, Bool.and_eq_true, beq_iff_eq] at h
    exact ⟨findsPeer_of_any h.1, .inr h.2⟩
  | deleteContext ctxId => cases h
  | dispatchPeerActivatedEvent connId life => cases h
  | _ => trivial

variable {ok : State → List Task → Input → Task → Prop} {moves : List (Sections.Move Task Input)}

theorem legal_of_checkMove {okNow : State → List Task → Input → Task → Bool}
    (hok : ∀ s held input task, okNow s held input task = true → ok s held input task)
    (config : Sections.Config State Task) (move : Sections.Move Task Input)
    (h : checkMove okNow config move = true) : signaling.Legal ok config move := by
  cases move with
  | start thread task =>
    rw [checkMove] at h
    split at h
    · exact ⟨‹_›, h⟩
    · cases h
  | run thread input =>
    rw [checkMove] at h
    split at h
    · rw [Bool.and_eq_true] at h
      exact ⟨_, _, ‹_›, allowed_of_allowedNow h.1, hok _ _ _ _ h.2⟩
    · cases h

/-- Four idle threads. -/
def sampleStart : Sections.Config State Task := ⟨State.initial 0 0, List.replicate 4 []⟩

def sampleConfig (moves : List (Sections.Move Task Input)) : Sections.Config State Task :=
  moves.foldl signaling.play sampleStart

theorem sampleConfig_reachable (okNow : State → List Task → Input → Task → Bool)
    (hok : ∀ s held input task, okNow s held input task = true → ok s held input task)
    (h : signaling.checkRun (checkMove okNow) sampleStart moves = true) :
    signaling.Reachable ok (State.initial 0 0) (sampleConfig moves) :=
  (Sections.Machine.Reachable.start 4).of_checkRun (legal_of_checkMove hok) moves h

theorem sampleConfig_anyRun
    (h : signaling.checkRun (checkMove fun _ _ _ _ => true) sampleStart moves = true) :
    signaling.Reachable Sections.anyRun (State.initial 0 0) (sampleConfig moves) :=
  sampleConfig_reachable _ (fun _ _ _ _ _ => trivial) h

end PS4Droid.Np
