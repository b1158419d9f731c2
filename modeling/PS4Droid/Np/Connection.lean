import Mathlib.Data.Int.Notation
import Mathlib.Data.Nat.Notation
import Mathlib.Tactic.SplitIfs

/-!
# Signaling connections

The records of `np_signaling_state.h`, and what the sections of the library do to one of them.
-/

namespace PS4Droid.Np

/-! ## Names -/

structure OnlineId where
  data : Vector UInt8 16
  term : UInt8
  dummy : Vector UInt8 3
  deriving DecidableEq

structure NpId where
  handle : OnlineId
  opt : Vector UInt8 8
  reserved : Vector UInt8 8
  deriving DecidableEq

/-- The text of sixteen bytes, up to a zero. -/
def textOf (data : Vector UInt8 16) : List UInt8 := data.toList.takeWhile (· ≠ 0)

/-- `OnlineIdToString`. -/
def OnlineId.text (id : OnlineId) : List UInt8 := textOf id.data

def OnlineId.zero : OnlineId := ⟨Vector.replicate 16 0, 0, Vector.replicate 3 0⟩

def NpId.zero : NpId := ⟨.zero, Vector.replicate 8 0, Vector.replicate 8 0⟩

def isAlnum (c : UInt8) : Bool :=
  (48 ≤ c && c ≤ 57) || (65 ≤ c && c ≤ 90) || (97 ≤ c && c ≤ 122)

/-- `sceNpIntIsValidOnlineId`. -/
def OnlineId.isValid (id : OnlineId) : Bool :=
  id.term == 0 && 3 ≤ id.text.length &&
    match id.text with
    | [] => false
    | first :: rest => isAlnum first && rest.all fun c => isAlnum c || c == 95 || c == 45

/-! ## Packets -/

inductive HandshakeKind where
  | offer
  | accept
  | check
  | checkAck
  | other
  deriving DecidableEq

/-- The fields of `SignalingHandshake` that are read. -/
structure Handshake where
  kind : HandshakeKind
  onlineIdFrom : Vector UInt8 16
  onlineIdTo : Vector UInt8 16
  fromConnId : ℤ
  toConnId : ℤ
  mappedAddr : ℕ
  nonce : ℤ
  deriving DecidableEq

/-- A handshake on the network. For the proofs it carries the connection for which it was sent and,
as an answer, the connection of the packet that it answers. -/
structure Datagram where
  packet : Handshake
  life : ℕ
  answers : ℕ
  deriving DecidableEq

inductive ControlKind where
  | activationRequest
  | activationAck
  | close
  | established
  | other
  deriving DecidableEq

inductive ControlReason where
  | terminate
  | deactivate
  | other
  deriving DecidableEq

/-- The fields of `SignalingControl` that are read. -/
structure Control where
  kind : ControlKind
  onlineIdFrom : Vector UInt8 16
  onlineIdTo : Vector UInt8 16
  mappedAddr : ℕ
  reason : ControlReason
  deriving DecidableEq

/-! ## Connections -/

inductive ConnState where
  | inactive
  | sendingOffer
  | waitOffer
  | connCheck
  | sendingAccept
  | waitAccept
  | established
  deriving DecidableEq

inductive Status where
  | inactive
  | pending
  | active
  deriving DecidableEq

inductive Event where
  | dead
  | established
  | peerActivated
  | peerDeactivated
  | mutualActivated
  deriving DecidableEq

inductive CloseError where
  | terminatedByMyself
  | terminatedByPeer
  | timeout
  deriving DecidableEq

/-- `ConnectionInfo`. For the proofs `life` numbers the connections in the order of their
creation. -/
structure ConnectionInfo where
  connId : ℤ
  ctxId : ℤ
  life : ℕ
  addr : ℕ := 0
  port : ℕ := 0
  status : Status := .inactive
  npid : NpId := .zero
  onlineId : OnlineId := .zero
  lastPeerRxUs : ℤ := 0
  state : ConnState := .inactive
  establishedFired : Bool := false
  establishedEventFired : Bool := false
  peerActivated : Bool := false
  locallyActivated : Bool := false
  peerActivatedFired : Bool := false
  peerEstablished : Bool := false
  mutualFired : Bool := false
  deadFired : Bool := false
  isInitiator : Bool := false
  timeoutCalloutArmed : Bool := false
  stepCalloutArmed : Bool := false
  deactivateLingering : Bool := false
  deriving DecidableEq

def statusFromState : ConnState → Status
  | .established => .active
  | .inactive => .inactive
  | _ => .pending

/-- A packet that carries the mapped address of the peer takes the first. -/
def ifMapped (mappedAddr mapped other : ℕ) : ℕ := if mappedAddr ≠ 0 then mapped else other

namespace ConnectionInfo

variable (ci : ConnectionInfo)

def setConnState (state : ConnState) : ConnectionInfo :=
  { ci with state := state, status := statusFromState state }

/-- `ArmTimeoutCalloutLocked`; `active` is `g_callout_ctx_active`. -/
def armTimeout (active : Bool) : ConnectionInfo :=
  { ci with timeoutCalloutArmed := active || ci.timeoutCalloutArmed }

def cancelTimeout : ConnectionInfo := { ci with timeoutCalloutArmed := false }

def armStep (active : Bool) : ConnectionInfo :=
  { ci with stepCalloutArmed := active || ci.stepCalloutArmed }

def cancelStep : ConnectionInfo := { ci with stepCalloutArmed := false }

/-- The timeout is armed unless it is already. -/
def keepTimeout (active : Bool) : ConnectionInfo :=
  if ci.timeoutCalloutArmed then ci else ci.armTimeout active

def clearLingerAndTimeout : ConnectionInfo := cancelTimeout { ci with deactivateLingering := false }

/-- The section of `CloseConnectionAndDispatchDead`. -/
def close : ConnectionInfo :=
  cancelStep (cancelTimeout { ci.setConnState .inactive with deadFired := true })

/-- The first part of `EstablishConnection`: the connection enters `Established` once. -/
def enterEstablished (active : Bool) (nowUs : ℤ) : ConnectionInfo :=
  if ci.establishedFired then ci
  else
    { armStep (cancelTimeout { ci with
        state := .established
        status := .active
        establishedFired := true }) active with
      lastPeerRxUs := nowUs
      peerActivatedFired := ci.peerActivatedFired || !ci.locallyActivated }

def hint (peerActivatedHint : Bool) : ConnectionInfo :=
  { ci with peerActivated := peerActivatedHint || ci.peerActivated }

def firesPeerActivated : Bool :=
  !ci.establishedFired && !ci.locallyActivated && !ci.peerActivatedFired

def firesEstablished : Bool :=
  ci.locallyActivated && ci.state == .established && !ci.establishedEventFired

def firesMutual : Bool :=
  ci.locallyActivated && ci.state == .established && ci.peerEstablished && !ci.mutualFired

/-- The rest of it: the flags of the events that fire. -/
def markFired : ConnectionInfo :=
  { ci with
    establishedEventFired := ci.establishedEventFired || ci.firesEstablished
    mutualFired := ci.mutualFired || ci.firesMutual }

/-- The section of `EstablishConnection`. -/
def establish (active : Bool) (nowUs : ℤ) (peerActivatedHint : Bool) : ConnectionInfo :=
  ((ci.hint peerActivatedHint).enterEstablished active nowUs).markFired

/-- The section of `DeactivateConnectionFaithful` for an established connection. -/
def linger (active : Bool) : ConnectionInfo :=
  armTimeout (cancelStep { ci with locallyActivated := false, deactivateLingering := true }) active

def startHandshake (active : Bool) : ConnectionInfo :=
  (((setConnState { ci with isInitiator := true } .sendingOffer)).keepTimeout active).armStep active

/-- `TimeoutCalloutHandler`. -/
def timeoutFired : ConnectionInfo := { ci with timeoutCalloutArmed := false }

/-- The established connection is watched over the network. -/
def isWatched : Bool :=
  ci.state == .established && !ci.deactivateLingering && ci.addr != 0 && ci.port != 0

def isHandshaking : Bool := ci.state != .established && ci.state != .inactive

/-- Nothing has come from the peer for a minute. -/
def isSilent (nowUs : ℤ) : Bool := ci.lastPeerRxUs != 0 && 60000000 ≤ nowUs - ci.lastPeerRxUs

/-- `StepCalloutHandler`: a silent connection is not armed again. -/
def stepFired (active : Bool) (nowUs : ℤ) : ConnectionInfo :=
  if ci.isWatched && !ci.isSilent nowUs || ci.isHandshaking then armStep ci.cancelStep active
  else ci.cancelStep

/-- The retransmitted packet. -/
def stepKind : HandshakeKind :=
  match ci.state with
  | .sendingAccept | .waitOffer => .accept
  | .connCheck | .established => .check
  | _ => .offer

def matchesPeer (fromId : List UInt8) : Bool :=
  ci.state != .inactive && !ci.deadFired && ci.onlineId.text == fromId

/-- A handshake has come from the peer. -/
def received (nowUs : ℤ) : ConnectionInfo := { ci with lastPeerRxUs := nowUs }

/-- The peer has activated the connection, and can be reached there. -/
def heard (addr port : ℕ) : ConnectionInfo :=
  { ci with peerActivated := true, addr := addr, port := port }

/-- An `Offer` from the peer. -/
def offered (active : Bool) (fromAddr fromPort mappedAddr : ℕ) : ConnectionInfo :=
  let ci := ci.heard (ifMapped mappedAddr mappedAddr fromAddr) fromPort
  if ci.state ≠ .established then
    ((ci.setConnState .sendingAccept).keepTimeout active).armStep active
  else ci

/-- The states in which an `Accept` is expected. -/
def expectsAccept : Bool :=
  ci.state == .sendingOffer || ci.state == .waitAccept || ci.state == .sendingAccept ||
    ci.state == .waitOffer

/-- An `Accept` from the peer. -/
def accepted (active : Bool) (fromAddr fromPort mappedAddr : ℕ) : ConnectionInfo :=
  let ci :=
    ci.heard (ifMapped mappedAddr mappedAddr fromAddr) (ifMapped mappedAddr ci.port fromPort)
  if ci.expectsAccept then (ci.setConnState .connCheck).armStep active else ci

/-- A `Check` from the peer. -/
def checked : ConnectionInfo :=
  if ci.state = .sendingAccept ∨ ci.state = .waitOffer then ci.setConnState .connCheck else ci

/-- An `ActivationRequest` from the peer. -/
def requested (active : Bool) (fromAddr fromPort mappedAddr : ℕ) : ConnectionInfo :=
  let ci := ci.heard (ifMapped mappedAddr mappedAddr fromAddr) fromPort
  if ci.state = .inactive then ci.keepTimeout active else ci

/-- An `ActivationAck` from the peer. -/
def acknowledged (mappedAddr : ℕ) : ConnectionInfo :=
  ci.heard (ifMapped mappedAddr mappedAddr ci.addr) ci.port

@[simp] theorem heard_state (addr port : ℕ) : (ci.heard addr port).state = ci.state := rfl

theorem requested_of_live {ci : ConnectionInfo} (h : ci.state ≠ .inactive) (active : Bool)
    (fromAddr fromPort mappedAddr : ℕ) : ci.requested active fromAddr fromPort mappedAddr =
      ci.heard (ifMapped mappedAddr mappedAddr fromAddr) fromPort := by
  rw [requested]
  exact if_neg h

theorem expectsAccept_state {ci : ConnectionInfo} (h : ci.expectsAccept = true) :
    ci.state ≠ .inactive ∧ ci.state ≠ .established := by
  simp only [expectsAccept, Bool.or_eq_true, beq_iff_eq] at h
  rcases h with ((h | h) | h) | h <;> simp [h]

/-! ## The identity of a record -/

/-- The fields that are set at the creation. -/
structure SameRecord (ci ci' : ConnectionInfo) : Prop where
  connId : ci'.connId = ci.connId
  ctxId : ci'.ctxId = ci.ctxId
  life : ci'.life = ci.life
  npid : ci'.npid = ci.npid
  onlineId : ci'.onlineId = ci.onlineId

theorem SameRecord.trans {ci ci₁ ci₂ : ConnectionInfo} (h : ci.SameRecord ci₁)
    (h' : ci₁.SameRecord ci₂) :
    ci.SameRecord ci₂ where
  connId := h'.connId.trans h.connId
  ctxId := h'.ctxId.trans h.ctxId
  life := h'.life.trans h.life
  npid := h'.npid.trans h.npid
  onlineId := h'.onlineId.trans h.onlineId

theorem received_sameRecord (nowUs : ℤ) : ci.SameRecord (ci.received nowUs) :=
  ⟨rfl, rfl, rfl, rfl, rfl⟩

theorem keepTimeout_eq (active : Bool) : ci.keepTimeout active = ci.armTimeout active := by
  rw [keepTimeout]
  split
  · rename_i harmed
    rw [armTimeout, harmed, Bool.or_true, ← harmed]
  · rfl

theorem startHandshake_sameRecord (active : Bool) : ci.SameRecord (ci.startHandshake active) := by
  rw [startHandshake, keepTimeout_eq]
  exact ⟨rfl, rfl, rfl, rfl, rfl⟩

theorem establish_sameRecord (active : Bool) (nowUs : ℤ) (peerActivatedHint : Bool) :
    ci.SameRecord (ci.establish active nowUs peerActivatedHint) := by
  rw [establish, enterEstablished]
  split <;> exact ⟨rfl, rfl, rfl, rfl, rfl⟩

theorem stepFired_sameRecord (active : Bool) (nowUs : ℤ) :
    ci.SameRecord (ci.stepFired active nowUs) := by
  rw [stepFired]
  split <;> exact ⟨rfl, rfl, rfl, rfl, rfl⟩

theorem offered_sameRecord (active : Bool) (fromAddr fromPort mappedAddr : ℕ) :
    ci.SameRecord (ci.offered active fromAddr fromPort mappedAddr) := by
  simp only [offered, keepTimeout_eq]
  split_ifs <;> exact ⟨rfl, rfl, rfl, rfl, rfl⟩

theorem accepted_sameRecord (active : Bool) (fromAddr fromPort mappedAddr : ℕ) :
    ci.SameRecord (ci.accepted active fromAddr fromPort mappedAddr) := by
  rw [accepted]
  split_ifs <;> exact ⟨rfl, rfl, rfl, rfl, rfl⟩

theorem checked_sameRecord : ci.SameRecord ci.checked := by
  rw [checked]
  split <;> exact ⟨rfl, rfl, rfl, rfl, rfl⟩

theorem requested_sameRecord (active : Bool) (fromAddr fromPort mappedAddr : ℕ) :
    ci.SameRecord (ci.requested active fromAddr fromPort mappedAddr) := by
  simp only [requested, keepTimeout_eq]
  split_ifs <;> exact ⟨rfl, rfl, rfl, rfl, rfl⟩

end ConnectionInfo

end PS4Droid.Np
