import PS4Droid.Foundations.FirstFit
import PS4Droid.Np.SignalingSteps

/-!
# Whose connections a packet changes

`HandleHandshakePacket` and `HandleControlPacket` look for a connection to the sender in the order
of a hash map, and do not look at the addressee. The sections of one call are run without another
thread between them.
-/

namespace PS4Droid.Np

/-! ## A call -/

inductive Packet where
  | handshake (datagram : Datagram)
  | control (packet : Control)

/-- A packet, and where it came from. -/
structure Arrival where
  fromAddr : ℕ
  fromPort : ℕ
  packet : Packet

namespace Arrival

variable (arrival : Arrival)

def fromId : List UInt8 :=
  match arrival.packet with
  | .handshake datagram => textOf datagram.packet.onlineIdFrom
  | .control packet => textOf packet.onlineIdFrom

/-- The addressee. -/
def toId : List UInt8 :=
  match arrival.packet with
  | .handshake datagram => textOf datagram.packet.onlineIdTo
  | .control packet => textOf packet.onlineIdTo

def task : Task :=
  match arrival.packet with
  | .handshake datagram => .handleHandshakePacket arrival.fromAddr arrival.fromPort datagram
  | .control packet => .handleControlPacket arrival.fromAddr arrival.fromPort packet

end Arrival

/-- The connection where the loop over `g_connections` stops. -/
def State.findConnection (s : State) (order : List ℤ) (fromId : List UInt8) : Option ℤ :=
  order.find? fun connId => (s.connections connId).any fun ci => ci.matchesPeer fromId

/-- The context where the loop over `g_contexts` stops. -/
def State.findContext (s : State) (order : List ℤ) (toId : List UInt8) : Option ℤ :=
  order.find? fun ctxId => (s.contexts ctxId).any fun ctx =>
    ctx.active && ctx.ownerOnlineId.text == toId

/-- So many sections, each with what follows from it before the others. -/
def runSections (inputs : ℕ → Input) : ℕ → State → List Task → State × List Task
  | 0, s, tasks => (s, tasks)
  | _ + 1, s, [] => (s, [])
  | count + 1, s, task :: tasks =>
    let r := exec (inputs 0) task s
    runSections (fun n => inputs (n + 1)) count r.1 (r.2 ++ tasks)

/-- A control packet that is sent, with its `from_conn_id`, and its destination. -/
structure SentControl where
  packet : Control
  fromConnId : ℤ
  addr : ℕ
  port : ℕ

/-- `MakeControlLocked`, without the connection that is in `SentControl`. -/
def State.makeControl (s : State) (input : Input) (ci : ConnectionInfo) (kind : ControlKind) :
    Control where
  kind := kind
  onlineIdFrom :=
    ((s.contexts ci.ctxId).map fun ctx => ctx.ownerOnlineId.data).getD (Vector.replicate 16 0)
  onlineIdTo := ci.onlineId.data
  mappedAddr := input.externalIp
  reason := .terminate

def State.controlSendTo (s : State) (input : Input) (ci : ConnectionInfo) (kind : ControlKind) :
    List SentControl :=
  if ci.addr ≠ 0 ∧ ci.port ≠ 0 then [⟨s.makeControl input ci kind, ci.connId, ci.addr, ci.port⟩]
    else []

/-- What a section of such a call sends: the `ActivationAck` to an `ActivationRequest`, and
`Established` where a connection establishes for the first time. -/
def controlsSent (input : Input) (task : Task) (s : State) : List SentControl :=
  match task with
  | .handleControlPacket fromAddr fromPort packet =>
    let ack ci := s.controlSendTo input
      (ConnectionInfo.requested ci s.calloutCtxActive fromAddr fromPort packet.mappedAddr)
        .activationAck
    if packet.kind ≠ .activationRequest then []
    else if input.connection = 0 then
      if input.context = 0 then []
      else
        match (s.allocateConnectionId input.random).1 with
        | none => []
        | some connId => ack (answererConnection connId input.context s.lives packet.onlineIdFrom)
    else
      match s.connections input.connection with
      | none => []
      | some ci => ack ci
  | .establishConnection connId hint =>
    match s.connections connId with
    | none => []
    | some ci =>
      if ci.establishedFired then []
      else s.controlSendTo input ((ci.hint hint).enterEstablished s.calloutCtxActive input.nowUs)
        .established
  | _ => []

/-- The control packets of so many sections. -/
def runControls (inputs : ℕ → Input) : ℕ → State → List Task → List SentControl
  | 0, _, _ => []
  | _ + 1, _, [] => []
  | count + 1, s, task :: tasks =>
    let r := exec (inputs 0) task s
    controlsSent (inputs 0) task s ++ runControls (fun n => inputs (n + 1)) count r.1 (r.2 ++ tasks)

namespace Arrival

variable (arrival : Arrival) (s : State)

/-- What the sections take from outside, where the loop over the connections has found one. -/
def inputs (found : Option ℤ) (contexts : List ℤ) (outside : ℕ → Input) (n : ℕ) : Input :=
  { outside n with
    connection := found.getD 0
    context := (s.findContext contexts arrival.toId).getD 0
    ids := contexts }

/-- The call with the connection that was found. No call has more than five sections. -/
def handleFound (contexts : List ℤ) (outside : ℕ → Input) (found : Option ℤ) : State :=
  (runSections (arrival.inputs s found contexts outside) 5 s [arrival.task]).1

/-- The whole call, with the orders in which the maps are gone through. -/
def handle (order contexts : List ℤ) (outside : ℕ → Input) : State :=
  arrival.handleFound s contexts outside (s.findConnection order arrival.fromId)

def sentFound (contexts : List ℤ) (outside : ℕ → Input) (found : Option ℤ) : List SentControl :=
  runControls (arrival.inputs s found contexts outside) 5 s [arrival.task]

/-- The control packets that the whole call sends. -/
def sent (order contexts : List ℤ) (outside : ℕ → Input) : List SentControl :=
  arrival.sentFound s contexts outside (s.findConnection order arrival.fromId)

end Arrival

/-- The connection belongs to a context of somebody else. -/
def State.BelongsToOther (s : State) (toId : List UInt8) (ci : ConnectionInfo) : Prop :=
  ∃ ctx, s.contexts ci.ctxId = some ctx ∧ ctx.ownerOnlineId.text ≠ toId

/-- In every order of the connections, the packet leaves those that are not the addressee's as they
are, does the same, and is answered in the same way. -/
structure Arrival.ActsOnAddressed (arrival : Arrival) (s : State) (connections contexts : List ℤ) :
    Prop where
  others : ∀ outside (order : List ℤ), order.Perm connections → ∀ id c, s.connections id = some c →
    s.BelongsToOther arrival.toId c →
      (arrival.handle s order contexts outside).connections id = some c
  order : ∀ outside (order order' : List ℤ), order.Perm connections → order'.Perm connections →
    arrival.handle s order contexts outside = arrival.handle s order' contexts outside ∧
      arrival.sent s order contexts outside = arrival.sent s order' contexts outside

/-! ## What a packet has to tell -/

namespace Arrival

variable (arrival : Arrival)

/-- The packet has something new for the connection. -/
def Tells (c : ConnectionInfo) : Prop :=
  match arrival.packet with
  | .handshake _ => True
  | .control packet =>
    match packet.kind with
    | .activationRequest =>
      ¬(c.peerActivated = true ∧
        c.addr = ifMapped packet.mappedAddr packet.mappedAddr arrival.fromAddr ∧
        c.port = arrival.fromPort)
    | .activationAck =>
        ¬(c.peerActivated = true ∧ c.addr = ifMapped packet.mappedAddr packet.mappedAddr c.addr)
    | .established =>
      c.peerEstablished = false ∨
        c.state = .established ∧
          (c.establishedFired = false ∨ c.firesEstablished = true ∨ c.firesMutual = true)
    | .close => ¬(packet.reason = .deactivate ∧ c.state = .established)
    | .other => False

/-- The callback of the context is to hear that the peer has deactivated the connection. -/
def Announces (s : State) (c : ConnectionInfo) : Prop :=
  match arrival.packet with
  | .handshake _ => False
  | .control packet =>
    packet.kind = .close ∧ packet.reason = .deactivate ∧ c.state = .established ∧
      ∃ ctx, s.contexts c.ctxId = some ctx ∧ ctx.active = true ∧ ctx.callback = true

/-- The packet is a request, and an acknowledgement has an address to go to. -/
def Acknowledged : Prop :=
  match arrival.packet with
  | .handshake _ => False
  | .control packet =>
    packet.kind = .activationRequest ∧
      ifMapped packet.mappedAddr packet.mappedAddr arrival.fromAddr ≠ 0 ∧ arrival.fromPort ≠ 0

/-- No connection of somebody else has news to hear from the packet. Where the loop may find
several, none of them has, and none acknowledges it. -/
structure Addressed (s : State) : Prop where
  others : ∀ id c, s.connections id = some c → c.matchesPeer arrival.fromId = true →
    s.BelongsToOther arrival.toId c → ¬arrival.Tells c
  single : ∀ id id' c c', s.connections id = some c → s.connections id' = some c' →
    c.matchesPeer arrival.fromId = true → c'.matchesPeer arrival.fromId = true → id ≠ id' →
    ¬arrival.Tells c ∧ ¬arrival.Announces s c ∧ ¬arrival.Acknowledged

end Arrival

/-! ## The sections of a call -/

/-- The sections that follow in a call are about one connection. -/
def Task.IsAbout (id : ℤ) : Task → Prop
  | .sendHandshake connId _ | .establishConnection connId _ | .startHandshakeInitiator connId
  | .closeConnection connId _ | .removeConnection connId | .dispatchConnectionEvent connId _ _ _
  | .dispatchPeerActivatedEvent connId _ => connId = id
  | _ => False

/-- How many sections a section of a call is at most, with those that follow from it. -/
def Task.sections : Task → ℕ
  | .handleHandshakePacket _ _ _ | .handleControlPacket _ _ _ => 5
  | .establishConnection _ _ => 4
  | .closeConnection _ _ => 3
  | _ => 1

section Sections

variable {s : State} {input : Input} {task : Task} {tasks : List Task} {id : ℤ}

/-- What a section on one connection leaves alone, and what follows it. -/
structure Confined (s s' : State) (id : ℤ) (tasks : List Task) : Prop where
  elsewhere : ∀ id', id' ≠ id → s'.connections id' = s.connections id'
  about : ∀ t ∈ tasks, t.IsAbout id

theorem Confined.refl : Confined s s id [] := ⟨fun _ _ => rfl, fun t ht => by cases ht⟩

theorem Confined.of_setConnection {c : ConnectionInfo} (h : ∀ t ∈ tasks, t.IsAbout id) :
    Confined s (s.setConnection id c) id tasks :=
  ⟨fun _ hne => Function.update_of_ne hne _ _, h⟩

theorem confined_onConnection {f : ConnectionInfo → State × List Task}
    (h : ∀ c, s.connections id = some c → Confined s (f c).1 id (f c).2) :
    Confined s (onConnection s id f).1 id (onConnection s id f).2 := by
  rw [onConnection]
  split
  · exact .refl
  · exact h _ ‹_›

theorem about_nil : ∀ t ∈ ([] : List Task), t.IsAbout id := fun t ht => by cases ht

variable {p : Prop}

theorem about_if [Decidable p] (h : task.IsAbout id) : ∀ t ∈ if p then [task] else [],
    t.IsAbout id := by
  intro t ht
  split at ht
  · rwa [List.mem_singleton.mp ht]
  · cases ht

theorem about_append {tasks' : List Task} (h : ∀ t ∈ tasks, t.IsAbout id)
    (h' : ∀ t ∈ tasks', t.IsAbout id) :
    ∀ t ∈ tasks ++ tasks', t.IsAbout id :=
  fun t ht => (List.mem_append.mp ht).elim (h t) (h' t)

theorem confined_exec (h : task.IsAbout id) :
    Confined s (exec input task s).1 id (exec input task s).2 := by
  cases task with
  | sendHandshake connId datagram =>
    obtain rfl := h
    exact confined_onConnection fun c hc => ⟨fun _ _ => by rw [State.send_connections], about_nil⟩
  | establishConnection connId hint =>
    obtain rfl := h
    exact confined_onConnection fun c hc => .of_setConnection
      (about_append (about_append (about_if rfl) (about_if rfl)) (about_if rfl))
  | startHandshakeInitiator connId =>
    obtain rfl := h
    rw [exec, startHandshakeInitiator]
    split
    · exact .refl
    · exact ⟨fun _ hne => by rw [State.send_connections]; exact Function.update_of_ne hne _ _,
        about_nil⟩
  | closeConnection connId error =>
    obtain rfl := h
    refine confined_onConnection fun c hc => ?_
    split
    · exact .refl
    · refine .of_setConnection fun t ht => ?_
      rcases List.mem_pair.mp ht with rfl | rfl <;> rfl
  | removeConnection connId =>
    obtain rfl := h
    rw [exec, State.removeConnectionLocked]
    split
    · exact .refl
    · exact ⟨fun _ hne => Function.update_of_ne hne _ _, about_nil⟩
  | dispatchConnectionEvent connId life event error =>
    exact ⟨fun _ _ => by rw [exec, dispatchConnectionEvent_connections], about_nil⟩
  | dispatchPeerActivatedEvent connId life =>
    exact ⟨fun _ _ => by rw [exec, dispatchPeerActivatedEvent_connections], about_nil⟩
  | _ => exact h.elim

theorem runSections_elsewhere {inputs : ℕ → Input} (count : ℕ) (h : ∀ t ∈ tasks, t.IsAbout id)
    {id' : ℤ} (hne : id' ≠ id) :
    (runSections inputs count s tasks).1.connections id' = s.connections id' := by
  induction count generalizing inputs s tasks with
  | zero => rfl
  | succ count ih =>
    cases tasks with
    | nil => rfl
    | cons task tasks =>
      have hconfined := @confined_exec s (inputs 0) task id (h task List.mem_cons_self)
      rw [runSections,
        ih (about_append hconfined.about fun t ht => h t (List.mem_cons_of_mem task ht)),
        hconfined.elsewhere id' hne]

theorem sections_if [Decidable p] :
    ((if p then [task] else []).map Task.sections).sum ≤ task.sections := by
  split
  · exact Nat.le_refl _
  · exact Nat.zero_le _

theorem sections_exec (h : task.IsAbout id) :
    ((exec input task s).2.map Task.sections).sum < task.sections := by
  have hon {f : ConnectionInfo → State × List Task} {connId : ℤ} (hpos : 0 < task.sections)
      (hf : ∀ c, ((f c).2.map Task.sections).sum < task.sections) :
      ((onConnection s connId f).2.map Task.sections).sum < task.sections := by
    rw [onConnection]
    split
    · exact hpos
    · exact hf _
  cases task with
  | sendHandshake connId datagram => exact hon Nat.one_pos fun c => Nat.one_pos
  | establishConnection connId hint =>
    refine hon (Nat.succ_pos 3) fun c => ?_
    rw [List.map_append, List.map_append, List.sum_append, List.sum_append]
    exact Nat.lt_succ_of_le (Nat.add_le_add (Nat.add_le_add sections_if sections_if) sections_if)
  | closeConnection connId error =>
    refine hon (Nat.succ_pos 2) fun c => ?_
    split
    · exact Nat.succ_pos 2
    · exact Nat.lt_succ_self 2
  | startHandshakeInitiator connId => exact Nat.one_pos
  | removeConnection connId => exact Nat.one_pos
  | dispatchConnectionEvent connId life event error => exact Nat.one_pos
  | dispatchPeerActivatedEvent connId life => exact Nat.one_pos
  | _ => exact h.elim

/-- The sections about a connection and those that follow them come to an end. -/
theorem runSections_done {inputs : ℕ → Input} {count : ℕ} (h : ∀ t ∈ tasks, t.IsAbout id)
    (hcount : (tasks.map Task.sections).sum ≤ count) :
    (runSections inputs count s tasks).2 = [] := by
  induction count generalizing inputs s tasks with
  | zero =>
    cases tasks with
    | nil => rfl
    | cons task tasks =>
      have hpos := @sections_exec s (inputs 0) task id (h task List.mem_cons_self)
      rw [List.map_cons, List.sum_cons] at hcount
      omega
  | succ count ih =>
    cases tasks with
    | nil => rfl
    | cons task tasks =>
      have hless := @sections_exec s (inputs 0) task id (h task List.mem_cons_self)
      have habout := (@confined_exec s (inputs 0) task id (h task List.mem_cons_self)).about
      rw [List.map_cons, List.sum_cons] at hcount
      rw [runSections]
      refine ih (about_append habout fun t ht => h t (List.mem_cons_of_mem task ht)) ?_
      rw [List.map_append, List.sum_append]
      omega

end Sections

/-! ## The first section -/

namespace Arrival

variable {arrival : Arrival} {s : State} {input : Input} {id : ℤ} {c : ConnectionInfo}

/-- The packet is about the connection that was found, or about a new one. -/
theorem confined_task (arrival : Arrival) (s : State) (input : Input) :
    ∃ id, (s.connections id = none ∨ id = input.connection) ∧
      Confined s (exec input arrival.task s).1 id (exec input arrival.task s).2 ∧
      ((exec input arrival.task s).2.map Task.sections).sum ≤ 4 := by
  have hon {f : ConnectionInfo → State × List Task}
    (h : ∀ c, Confined s (f c).1 input.connection (f c).2 ∧ ((f c).2.map Task.sections).sum ≤ 4) :
      ∃ id, (s.connections id = none ∨ id = input.connection) ∧
        Confined s (onConnection s input.connection f).1 id
        (onConnection s input.connection f).2 ∧
          ((onConnection s input.connection f).2.map Task.sections).sum ≤ 4 := by
    refine ⟨input.connection, .inr rfl, confined_onConnection fun c _ => (h c).1, ?_⟩
    rw [onConnection]
    split
    · exact Nat.zero_le 4
    · exact (h _).2
  have hif {p : Prop} [Decidable p] {task : Task} (h : task.sections ≤ 4) :
      ((if p then [task] else []).map Task.sections).sum ≤ 4 := Nat.le_trans sections_if h
  obtain ⟨fromAddr, fromPort, packet⟩ := arrival
  cases packet with
  | handshake datagram =>
    refine hon fun c => ?_
    dsimp only
    split
    · exact ⟨.of_setConnection (about_if rfl), hif (Nat.le_of_ble_eq_true rfl)⟩
    · exact ⟨.of_setConnection (about_if rfl), hif (Nat.le_of_ble_eq_true rfl)⟩
    · refine ⟨.of_setConnection fun t ht => ?_, Nat.le_of_ble_eq_true rfl⟩
      rw [List.mem_singleton.mp ht]
      rfl
    · exact ⟨.of_setConnection (about_if rfl), hif (Nat.le_of_ble_eq_true rfl)⟩
    · exact ⟨.of_setConnection about_nil, Nat.zero_le 4⟩
  | control packet =>
    rw [task, exec, handleControlPacket]
    dsimp only
    split
    · split
      · rw [answerRequest]
        split
        · exact ⟨input.connection, .inr rfl, .refl, Nat.zero_le 4⟩
        · split
          · rename_i s' halloc
            obtain ⟨next, rfl⟩ := State.allocateConnectionId_none halloc
            exact ⟨input.connection, .inr rfl, ⟨fun _ _ => rfl, about_nil⟩, Nat.zero_le 4⟩
          · rename_i connId s' halloc
            obtain ⟨⟨next, rfl⟩, hfree, -⟩ := State.allocateConnectionId_spec halloc
            refine ⟨connId, .inl hfree, ⟨fun id' hne => ?_, fun t ht => ?_⟩,
              Nat.le_of_ble_eq_true rfl⟩
            · exact (Function.update_of_ne hne _ _).trans (Function.update_of_ne hne _ _)
            · change t ∈ [Task.startHandshakeInitiator connId] at ht
              rw [List.mem_singleton.mp ht]
              rfl
      · exact hon fun c => ⟨.of_setConnection (about_if rfl), hif (Nat.le_of_ble_eq_true rfl)⟩
    · exact hon fun c => ⟨.of_setConnection about_nil, Nat.zero_le 4⟩
    · exact hon fun c => ⟨.of_setConnection (about_if rfl), hif (Nat.le_of_ble_eq_true rfl)⟩
    · refine hon fun c => ?_
      dsimp only
      split
      · exact ⟨⟨fun _ _ => rfl, fun t ht => by rw [List.mem_singleton.mp ht]; rfl⟩,
          Nat.le_of_ble_eq_true rfl⟩
      · exact ⟨⟨fun _ _ => rfl, fun t ht => by rw [List.mem_singleton.mp ht]; rfl⟩,
          Nat.le_of_ble_eq_true rfl⟩
    · exact ⟨input.connection, .inr rfl, .refl, Nat.zero_le 4⟩

/-- The five sections are the whole call. -/
theorem handle_done {contexts : List ℤ} {outside : ℕ → Input} (found : Option ℤ) :
    (runSections (arrival.inputs s found contexts outside) 5 s [arrival.task]).2 = [] := by
  obtain ⟨id, -, hconfined, hcount⟩ :=
    arrival.confined_task s (arrival.inputs s found contexts outside 0)
  rw [runSections, List.append_nil]
  exact runSections_done hconfined.about hcount

/-- The connections that are there, apart from the one that was found, are left as they are. -/
theorem handleFound_elsewhere {contexts : List ℤ} {outside : ℕ → Input} {found : Option ℤ}
    (hc : s.connections id = some c) (hne : id ≠ found.getD 0) :
    (arrival.handleFound s contexts outside found).connections id = some c := by
  obtain ⟨id', hid, hconfined, -⟩ :=
    arrival.confined_task s (arrival.inputs s found contexts outside 0)
  have hother : id ≠ id' := by
    rintro rfl
    rcases hid with hnone | hfound
    · cases hnone.symm.trans hc
    · exact hne hfound
  rw [handleFound, runSections, List.append_nil, runSections_elsewhere 4 hconfined.about hother,
    hconfined.elsewhere id hother, hc]

end Arrival

/-! ## The connection that was found -/

section Found

variable {s : State} {inputs : ℕ → Input} {tasks : List Task} {id : ℤ} {c : ConnectionInfo}

theorem onConnection_of {f : ConnectionInfo → State × List Task} (hc : s.connections id = some c) :
    onConnection s id f = f c := by
  rw [onConnection, hc]

theorem setConnection_self (hc : s.connections id = some c) : s.setConnection id c = s := by
  rw [State.setConnection, ← hc, Function.update_eq_self]

/-- The sections that only hand something on. -/
def Task.IsMessage : Task → Prop
  | .sendHandshake _ _ | .dispatchConnectionEvent _ _ _ _ | .dispatchPeerActivatedEvent _ _ => True
  | _ => False

theorem exec_message {task : Task} {input : Input} (h : task.IsMessage) :
    (exec input task s).1.connections = s.connections ∧ (exec input task s).2 = [] := by
  cases task with
  | sendHandshake connId datagram =>
    rw [exec, onConnection]
    split
    · exact ⟨rfl, rfl⟩
    · exact ⟨State.send_connections _ _, rfl⟩
  | dispatchConnectionEvent connId life event error =>
      exact ⟨dispatchConnectionEvent_connections connId event error, rfl⟩
  | dispatchPeerActivatedEvent connId life =>
      exact ⟨dispatchPeerActivatedEvent_connections connId, rfl⟩
  | _ => exact h.elim

theorem runSections_messages (count : ℕ) (h : ∀ t ∈ tasks, t.IsMessage) :
    (runSections inputs count s tasks).1.connections = s.connections := by
  induction count generalizing inputs s tasks with
  | zero => rfl
  | succ count ih =>
    cases tasks with
    | nil => rfl
    | cons task tasks =>
      obtain ⟨hconnections, htasks⟩ := @exec_message s task (inputs 0) (h task List.mem_cons_self)
      rw [runSections, htasks, List.nil_append, ih fun t ht => h t (List.mem_cons_of_mem task ht),
        hconnections]

theorem runSections_establish (count : ℕ) (hint : Bool) (hc : s.connections id = some c) :
    (runSections inputs (count + 1) s [.establishConnection id hint]).1.connections id =
      some (c.establish s.calloutCtxActive (inputs 0).nowUs hint) := by
  rw [runSections, List.append_nil, exec, establishConnection, onConnection_of hc,
    runSections_messages count]
  · exact Function.update_self _ _ _
  · intro t ht
    dsimp only at ht
    rw [List.mem_append, List.mem_append] at ht
    rcases ht with (ht | ht) | ht
    all_goals
      split at ht
      · rw [List.mem_singleton.mp ht]
        trivial
      · cases ht

theorem runSections_close (error : CloseError) (hc : s.connections id = some c)
    (hlive : c.state ≠ .inactive) (hdead : c.deadFired = false) :
    (runSections inputs 4 s [.closeConnection id error]).1.connections id = none := by
  have hfired : ¬(c.state = .inactive ∨ c.deadFired = true) := by
    rw [hdead]
    exact fun h => h.elim hlive Bool.false_ne_true
  rw [runSections, List.append_nil, exec, closeConnection, onConnection_of hc, if_neg hfired,
    runSections]
  dsimp only [exec]
  rw [List.nil_append, runSections]
  dsimp only [exec]
  rw [State.removeConnectionLocked, dispatchConnectionEvent_connections,
    State.setConnection_connections, Function.update_self]
  exact Function.update_self _ _ _

end Found

namespace ConnectionInfo

variable (c : ConnectionInfo)

theorem offered_lastPeerRxUs (active : Bool) (fromAddr fromPort mappedAddr : ℕ) :
    (c.offered active fromAddr fromPort mappedAddr).lastPeerRxUs = c.lastPeerRxUs := by
  rw [offered]
  split
  · rw [keepTimeout_eq]
    rfl
  · rfl

theorem accepted_lastPeerRxUs (active : Bool) (fromAddr fromPort mappedAddr : ℕ) :
    (c.accepted active fromAddr fromPort mappedAddr).lastPeerRxUs = c.lastPeerRxUs := by
  rw [accepted]
  split <;> rfl

theorem checked_lastPeerRxUs : c.checked.lastPeerRxUs = c.lastPeerRxUs := by
  rw [checked]
  split <;> rfl

theorem establish_lastPeerRxUs {nowUs : ℤ} (active hint : Bool) (h : c.lastPeerRxUs = nowUs) :
    (c.establish active nowUs hint).lastPeerRxUs = nowUs := by
  rw [establish, markFired, enterEstablished]
  split
  · exact h
  · rfl

theorem enterEstablished_again {c : ConnectionInfo} (active : Bool) (nowUs : ℤ)
    (hfired : c.establishedFired = true) :
    (c.hint false).enterEstablished active nowUs = c := by
  rw [enterEstablished, if_pos (show (c.hint false).establishedFired = true from hfired)]
  rfl

/-- An established connection for which every event has fired is left as it is. -/
theorem establish_again {c : ConnectionInfo} (active : Bool) (nowUs : ℤ)
    (hfired : c.establishedFired = true)
    (hestablished : c.firesEstablished = false) (hmutual : c.firesMutual = false) :
    c.establish active nowUs false = c := by
  rw [establish, enterEstablished_again active nowUs hfired, markFired, hestablished, hmutual,
    Bool.or_false, Bool.or_false]

/-- A connection that establishes anew, or fires an event, keeps a flag of it. -/
theorem establish_ne {c : ConnectionInfo} (active : Bool) (nowUs : ℤ)
    (h : c.establishedFired = false ∨ c.firesEstablished = true ∨ c.firesMutual = true) :
    c.establish active nowUs false ≠ c := by
  intro heq
  cases hfired : c.establishedFired with
  | false =>
    have hflag : (c.establish active nowUs false).establishedFired = true := by
      rw [establish, markFired, enterEstablished,
        if_neg (show ¬(c.hint false).establishedFired = true by simp [hint, hfired])]
      rfl
    rw [heq, hfired] at hflag
    cases hflag
  | true =>
    rw [establish, enterEstablished_again active nowUs hfired] at heq
    rcases h with h | h | h
    · rw [hfired] at h
      cases h
    · have hflag := congrArg establishedEventFired heq
      rw [markFired, h, Bool.or_true] at hflag
      rw [firesEstablished, ← hflag] at h
      simp at h
    · have hflag := congrArg mutualFired heq
      rw [markFired, h, Bool.or_true] at hflag
      rw [firesMutual, ← hflag] at h
      simp at h

theorem establish_peerEstablished (active : Bool) (nowUs : ℤ) (hint : Bool) :
    (c.establish active nowUs hint).peerEstablished = c.peerEstablished := by
  rw [establish, markFired, enterEstablished]
  split <;> rfl

end ConnectionInfo

namespace Arrival

variable {arrival : Arrival} {s : State} {contexts : List ℤ} {outside : ℕ → Input} {id : ℤ}
  {c : ConnectionInfo}
  {fromId : List UInt8} {connections : List ℤ}

theorem live_of_matchesPeer (h : c.matchesPeer fromId = true) :
    c.state ≠ .inactive ∧ c.deadFired = false := by
  simp only [ConnectionInfo.matchesPeer, Bool.and_eq_true, bne_iff_ne, Bool.not_eq_true'] at h
  exact h.1

theorem message_if {p : Prop} [Decidable p] {task : Task} (h : task.IsMessage) :
    ∀ t ∈ if p then [task] else [], t.IsMessage := by
  intro t ht
  split at ht
  · rwa [List.mem_singleton.mp ht]
  · cases ht

/-- A handshake is heard now, and something is handed on or the connection is established. -/
theorem handshake_first (input : Input) (fromAddr fromPort : ℕ) (datagram : Datagram)
    (hc : s.connections input.connection = some c) :
    ∃ c' tasks, exec input (.handleHandshakePacket fromAddr fromPort datagram) s =
        (s.setConnection input.connection c', tasks) ∧ c'.lastPeerRxUs = input.nowUs ∧
      ((∀ t ∈ tasks, t.IsMessage) ∨ tasks = [.establishConnection input.connection true]) := by
  rw [exec, handleHandshakePacket]
  dsimp only
  rw [onConnection_of hc]
  split
  · exact ⟨_, _, rfl, ConnectionInfo.offered_lastPeerRxUs _ _ _ _ _, .inl (message_if trivial)⟩
  · exact ⟨_, _, rfl, ConnectionInfo.accepted_lastPeerRxUs _ _ _ _ _, .inl (message_if trivial)⟩
  · refine ⟨_, _, rfl, ConnectionInfo.checked_lastPeerRxUs _, .inl fun t ht => ?_⟩
    rw [List.mem_singleton.mp ht]
    trivial
  · split
    · exact ⟨_, _, rfl, rfl, .inr rfl⟩
    · exact ⟨_, _, rfl, rfl, .inl fun t ht => by cases ht⟩
  · exact ⟨_, _, rfl, rfl, .inl fun t ht => by cases ht⟩

theorem handshake_heard (contexts : List ℤ) (fromAddr fromPort : ℕ) (datagram : Datagram)
    (hc : s.connections id = some c) {nowUs : ℤ} (hnow : ∀ n, (outside n).nowUs = nowUs) :
    ∃ c', ((Arrival.mk fromAddr fromPort (.handshake datagram)).handleFound s contexts outside
      (some id)).connections id = some c' ∧ c'.lastPeerRxUs = nowUs := by
  obtain ⟨c', tasks, hexec, hheard, htasks⟩ := handshake_first
    ((Arrival.mk fromAddr fromPort (.handshake datagram)).inputs s (some id) contexts outside 0)
      fromAddr fromPort datagram hc
  have hself : (s.setConnection id c').connections id = some c' := Function.update_self _ _ _
  rw [handleFound, task, runSections, List.append_nil]
  dsimp only
  rw [hexec]
  rcases htasks with hmessages | rfl
  · refine ⟨c', ?_, hheard.trans (hnow 0)⟩
    rw [runSections_messages 4 hmessages]
    exact hself
  · refine ⟨_, runSections_establish 3 true hself, ?_⟩
    exact (ConnectionInfo.establish_lastPeerRxUs c' _ _
      (hheard.trans ((hnow 0).trans (hnow 1).symm))).trans (hnow 1)

/-- What a control packet does to the connection that was found. -/
theorem control_first {input : Input} (fromAddr fromPort : ℕ) (packet : Control)
    (hid : input.connection ≠ 0)
    (hc : s.connections input.connection = some c) (hlive : c.state ≠ .inactive) :
    exec input (.handleControlPacket fromAddr fromPort packet) s =
      match packet.kind with
      | .activationRequest =>
        (s.setConnection input.connection
          (c.heard (ifMapped packet.mappedAddr packet.mappedAddr fromAddr) fromPort), [])
      | .activationAck => (s.setConnection input.connection (c.acknowledged packet.mappedAddr), [])
      | .established =>
        (s.setConnection input.connection { c with peerEstablished := true },
          if c.state = .established then [.establishConnection input.connection false] else [])
      | .close =>
        (s, if packet.reason = .deactivate ∧ c.state = .established then
          [.dispatchConnectionEvent input.connection c.life .peerDeactivated none]
        else [.closeConnection input.connection .terminatedByPeer])
      | .other => (s, []) := by
  rw [exec, handleControlPacket]
  cases packet.kind with
  | activationRequest =>
    dsimp only
    rw [if_neg hid, onConnection_of hc, requestConnection, if_neg hlive,
      ConnectionInfo.requested_of_live hlive]
  | activationAck | established | close =>
    dsimp only
    rw [onConnection_of hc]
  | other => rfl

theorem heard_eq_iff {addr port : ℕ} : c.heard addr port = c ↔ c.peerActivated = true ∧
    c.addr = addr ∧ c.port = port := by
  constructor
  · intro h
    have hactivated := congrArg ConnectionInfo.peerActivated h
    have haddr := congrArg ConnectionInfo.addr h
    have hport := congrArg ConnectionInfo.port h
    exact ⟨hactivated.symm, haddr.symm, hport.symm⟩
  · rintro ⟨hactivated, rfl, rfl⟩
    rw [ConnectionInfo.heard, ← hactivated]

theorem inputs_connection (found : Option ℤ) (n : ℕ) :
    (arrival.inputs s found contexts outside n).connection = found.getD 0 := rfl

theorem peerEstablished_self (h : c.peerEstablished = true) :
    { c with peerEstablished := true } = c := by
  rw [← h]

theorem runSections_nil {inputs : ℕ → Input} (count : ℕ) :
    runSections inputs count s [] = (s, []) := by
  cases count <;> rfl

theorem told (contexts : List ℤ) (hc : s.connections id = some c) (hid : id ≠ 0)
    (hmatch : c.matchesPeer arrival.fromId = true)
    (h : arrival.Tells c) :
    ∃ outside, (arrival.handleFound s contexts outside (some id)).connections id ≠ some c := by
  obtain ⟨hlive, hdead⟩ := live_of_matchesPeer hmatch
  obtain ⟨fromAddr, fromPort, packet⟩ := arrival
  have hself (c' : ConnectionInfo) : (s.setConnection id c').connections id = some c' :=
    Function.update_self _ _ _
  cases packet with
  | handshake datagram =>
    obtain ⟨outside, houtside⟩ : ∃ outside : ℕ → Input, ∀ n,
      (outside n).nowUs = c.lastPeerRxUs + 1 :=
      ⟨fun _ => { sampleInput with nowUs := c.lastPeerRxUs + 1 }, fun _ => rfl⟩
    obtain ⟨c', hc', hheard⟩ := handshake_heard contexts fromAddr fromPort datagram hc houtside
    refine ⟨outside, ?_⟩
    rw [hc']
    intro heq
    rw [Option.some.inj heq] at hheard
    omega
  | control packet =>
    refine ⟨fun _ => sampleInput, ?_⟩
    rw [Tells] at h
    rw [handleFound, task, runSections, List.append_nil]
    dsimp only
    rw [control_first _ _ _ hid hc hlive]
    dsimp only at h
    cases hkind : packet.kind with
    | activationRequest =>
      rw [hkind, ← heard_eq_iff] at h
      dsimp only at h ⊢
      rw [runSections_nil]
      exact fun heq => h (Option.some.inj ((hself _).symm.trans heq))
    | activationAck =>
      rw [hkind] at h
      dsimp only at h ⊢
      rw [runSections_nil]
      intro heq
      have hsame := heard_eq_iff.mp (Option.some.inj ((hself _).symm.trans heq))
      exact h ⟨hsame.1, hsame.2.1⟩
    | established =>
      rw [hkind] at h
      dsimp only at h ⊢
      split
      · intro heq
        have hafter := Option.some.inj ((runSections_establish 3 false (hself _)).symm.trans heq)
        have hpeer := congrArg ConnectionInfo.peerEstablished hafter
        rw [ConnectionInfo.establish_peerEstablished] at hpeer
        rw [peerEstablished_self hpeer.symm] at hafter
        rcases h with h | ⟨-, h⟩
        · cases h.symm.trans hpeer.symm
        · exact ConnectionInfo.establish_ne _ _ h hafter
      · rename_i hstate
        rw [runSections_nil]
        intro heq
        have hpeer :=
          congrArg ConnectionInfo.peerEstablished (Option.some.inj ((hself _).symm.trans heq))
        rcases h with h | ⟨h, -⟩
        · cases h.symm.trans hpeer.symm
        · exact hstate h
    | close =>
      rw [hkind] at h
      dsimp only at h ⊢
      rw [if_neg h]
      intro heq
      cases (runSections_close .terminatedByPeer hc hlive hdead).symm.trans heq
    | other =>
      rw [hkind] at h
      exact h.elim

/-- To establish again a connection for which every event has fired does nothing. -/
theorem runSections_establishAgain {inputs : ℕ → Input} (hc : s.connections id = some c)
    (hfired : c.establishedFired = true)
    (hestablished : c.firesEstablished = false) (hmutual : c.firesMutual = false) :
    (runSections inputs 4 s [.establishConnection id false]).1 = s := by
  have hpeer : c.firesPeerActivated = false := by
    rw [ConnectionInfo.firesPeerActivated, hfired]; rfl
  rw [runSections, List.append_nil, exec, establishConnection, onConnection_of hc]
  dsimp only
  rw [ConnectionInfo.establish_again _ _ hfired hestablished hmutual,
    ConnectionInfo.enterEstablished_again _ _ hfired, hpeer,
    hestablished, hmutual, setConnection_self hc]
  exact congrArg Prod.fst (runSections_nil 3)

theorem runSections_dispatch {inputs : ℕ → Input} (event : Event) (hc : s.connections id = some c) :
    ((¬∃ ctx, s.contexts c.ctxId = some ctx ∧ ctx.active = true ∧ ctx.callback = true) ∧
        (runSections inputs 4 s [.dispatchConnectionEvent id c.life event none]).1 = s) ∨
      (∃ ctx, s.contexts c.ctxId = some ctx ∧ ctx.active = true ∧ ctx.callback = true) ∧
        (runSections inputs 4 s [.dispatchConnectionEvent id c.life event none]).1 =
          { s with dispatchQueue := s.dispatchQueue ++ [⟨c.ctxId, id, event, none, c.life⟩] } := by
  rw [runSections, List.append_nil, exec]
  dsimp only
  rw [runSections_nil, dispatchConnectionEvent, hc]
  dsimp only
  cases s.contexts c.ctxId with
  | none =>
    refine .inl ⟨?_, rfl⟩
    rintro ⟨ctx, hctx, -⟩
    cases hctx
  | some ctx =>
    dsimp only
    cases hactive : ctx.active with
    | false =>
      refine .inl ⟨?_, rfl⟩
      rintro ⟨ctx', hctx, hactive', -⟩
      rw [← Option.some.inj hctx, hactive] at hactive'
      cases hactive'
    | true =>
      rw [if_pos rfl, State.stage]
      cases hcallback : ctx.callback with
      | false =>
        refine .inl ⟨?_, rfl⟩
        rintro ⟨ctx', hctx, -, hcallback'⟩
        rw [← Option.some.inj hctx, hcallback] at hcallback'
        cases hcallback'
      | true => exact .inr ⟨⟨ctx, rfl, hactive, hcallback⟩, rfl⟩

/-- What has nothing new for the connection changes nothing, but may be announced to the
callback. -/
theorem untold (contexts : List ℤ) (outside : ℕ → Input) (hc : s.connections id = some c)
    (hid : id ≠ 0) (hmatch : c.matchesPeer arrival.fromId = true) (h : ¬arrival.Tells c) :
    (¬arrival.Announces s c ∧ arrival.handleFound s contexts outside (some id) = s) ∨
      arrival.Announces s c ∧ arrival.handleFound s contexts outside (some id) =
        { s with dispatchQueue := s.dispatchQueue ++
          [⟨c.ctxId, id, .peerDeactivated, none, c.life⟩] } := by
  obtain ⟨hlive, -⟩ := live_of_matchesPeer hmatch
  obtain ⟨fromAddr, fromPort, packet⟩ := arrival
  cases packet with
  | handshake datagram => exact absurd trivial h
  | control packet =>
    rw [Tells] at h
    rw [Announces, handleFound, task, runSections, List.append_nil]
    dsimp only
    rw [control_first _ _ _ hid hc hlive]
    dsimp only at h
    cases hkind : packet.kind with
    | activationRequest =>
      rw [hkind, not_not, ← heard_eq_iff] at h
      refine .inl ⟨fun hannounces => (by cases hannounces.1), ?_⟩
      dsimp only
      rw [runSections_nil, h]
      exact setConnection_self hc
    | activationAck =>
      rw [hkind, not_not] at h
      have hsame : c.acknowledged packet.mappedAddr = c := heard_eq_iff.mpr ⟨h.1, h.2, rfl⟩
      refine .inl ⟨fun hannounces => (by cases hannounces.1), ?_⟩
      dsimp only
      rw [runSections_nil, hsame]
      exact setConnection_self hc
    | established =>
      rw [hkind] at h
      refine .inl ⟨fun hannounces => (by cases hannounces.1), ?_⟩
      dsimp only at h ⊢
      rw [not_or, Bool.not_eq_false] at h
      rw [peerEstablished_self h.1, inputs_connection, Option.getD_some, setConnection_self hc]
      split
      · rename_i hstate
        have hfired := not_and.mp h.2 hstate
        rw [not_or, not_or, Bool.not_eq_false, Bool.not_eq_true, Bool.not_eq_true] at hfired
        exact runSections_establishAgain hc hfired.1 hfired.2.1 hfired.2.2
      · rw [runSections_nil]
    | close =>
      rw [hkind, not_not] at h
      dsimp only
      rw [if_pos h]
      rcases runSections_dispatch .peerDeactivated hc with ⟨hsilent, hrun⟩ | ⟨hheard, hrun⟩
      · exact .inl ⟨fun hannounces => hsilent hannounces.2.2.2, hrun⟩
      · exact .inr ⟨⟨rfl, h.1, h.2, hheard⟩, hrun⟩
    | other =>
        exact .inl ⟨fun hannounces => (by cases hannounces.1), by dsimp only; rw [runSections_nil]⟩

/-! ## What is sent -/

theorem runControls_nil {inputs : ℕ → Input} (count : ℕ) : runControls inputs count s [] = [] := by
  cases count <;> rfl

theorem runControls_messages {inputs : ℕ → Input} {tasks : List Task} (count : ℕ)
    (h : ∀ t ∈ tasks, t.IsMessage) :
    runControls inputs count s tasks = [] := by
  induction count generalizing inputs s tasks with
  | zero => rfl
  | succ count ih =>
    cases tasks with
    | nil => rfl
    | cons task tasks =>
      have hmessage := h task List.mem_cons_self
      have hnone : controlsSent (inputs 0) task s = [] := by
        cases task with
        | sendHandshake | dispatchConnectionEvent | dispatchPeerActivatedEvent => rfl
        | _ => exact hmessage.elim
      rw [runControls, hnone, (exec_message hmessage).2, List.nil_append]
      exact ih fun t ht => h t (List.mem_cons_of_mem task ht)

/-- The acknowledgement names the connection that was found. -/
theorem sent_acknowledged (contexts : List ℤ) (outside : ℕ → Input) (hc : s.connections id = some c)
    (hid : id ≠ 0) (hlive : c.state ≠ .inactive) (h : arrival.Acknowledged) :
    ∃ packet addr port,
      arrival.sentFound s contexts outside (some id) = [⟨packet, c.connId, addr, port⟩] := by
  obtain ⟨fromAddr, fromPort, packet⟩ := arrival
  cases packet with
  | handshake datagram => exact h.elim
  | control packet =>
    obtain ⟨hkind, haddr, hport⟩ := h
    rw [sentFound, task, runControls, List.append_nil]
    dsimp only
    rw [control_first _ _ _ hid hc hlive, hkind]
    dsimp only
    rw [runControls_nil, List.append_nil, controlsSent]
    dsimp only
    rw [if_neg (not_not.mpr hkind), inputs_connection, Option.getD_some, if_neg hid, hc]
    dsimp only
    rw [ConnectionInfo.requested_of_live hlive, State.controlSendTo]
    exact ⟨_, _, _, if_pos ⟨haddr, hport⟩⟩

/-- Without news, and without an acknowledgement, nothing is sent. -/
theorem sent_untold (contexts : List ℤ) (outside : ℕ → Input) (hc : s.connections id = some c)
    (hid : id ≠ 0)
    (hlive : c.state ≠ .inactive) (htells : ¬arrival.Tells c) (h : ¬arrival.Acknowledged) :
    arrival.sentFound s contexts outside (some id) = [] := by
  obtain ⟨fromAddr, fromPort, packet⟩ := arrival
  cases packet with
  | handshake datagram => exact absurd trivial htells
  | control packet =>
    rw [Tells] at htells
    rw [sentFound, task, runControls, List.append_nil]
    dsimp only
    rw [control_first _ _ _ hid hc hlive, controlsSent]
    dsimp only at htells ⊢
    cases hkind : packet.kind with
    | activationRequest =>
      dsimp only
      rw [runControls_nil, List.append_nil, if_neg (not_not.mpr rfl), inputs_connection,
        Option.getD_some, if_neg hid, hc]
      dsimp only
      rw [ConnectionInfo.requested_of_live hlive, State.controlSendTo]
      exact if_neg fun haddr => h ⟨hkind, haddr⟩
    | activationAck | other =>
      dsimp only
      rw [runControls_nil, if_pos (by decide)]
      rfl
    | established =>
      rw [hkind] at htells
      dsimp only at htells ⊢
      rw [not_or, Bool.not_eq_false] at htells
      rw [if_pos (by decide), List.nil_append, peerEstablished_self htells.1, inputs_connection,
        Option.getD_some, setConnection_self hc]
      split
      · rename_i hstate
        have hfired := not_and.mp htells.2 hstate
        rw [not_or, not_or, Bool.not_eq_false] at hfired
        have hnone : controlsSent
          (((Arrival.mk fromAddr fromPort (.control packet)).inputs s (some id) contexts outside) 1)
            (.establishConnection id false) s = [] := by
          rw [controlsSent, hc]
          exact if_pos hfired.1
        rw [runControls, hnone, List.nil_append, List.append_nil]
        refine runControls_messages 3 ?_
        rw [exec, establishConnection, onConnection_of hc]
        intro t ht
        rw [List.mem_append, List.mem_append] at ht
        rcases ht with (ht | ht) | ht
        all_goals
          split at ht
          · rw [List.mem_singleton.mp ht]
            trivial
          · cases ht
      · exact runControls_nil 4
    | close =>
      dsimp only
      rw [hkind, not_not] at htells
      rw [if_pos (by decide), List.nil_append, if_pos htells]
      exact runControls_messages 4 fun t ht => by rw [List.mem_singleton.mp ht]; trivial

/-! ## Whose connections change -/

theorem any_matchesPeer (hc : s.connections id = some c) :
    ((s.connections id).any fun ci => ci.matchesPeer fromId) = c.matchesPeer fromId := by
  rw [hc, Option.any_some]

theorem ne_zero (hs : s.WellFormed) (hc : s.connections id = some c) : id ≠ 0 := by
  rintro rfl
  cases hs.zero.symm.trans hc

theorem others_iff (hs : s.WellFormed)
    (hkeys : ∀ id, id ∈ connections ↔ (s.connections id).isSome = true) :
    (∀ outside (order : List ℤ), order.Perm connections → ∀ id c, s.connections id = some c →
      s.BelongsToOther arrival.toId c →
        (arrival.handle s order contexts outside).connections id = some c) ↔
    ∀ id c, s.connections id = some c → c.matchesPeer arrival.fromId = true →
      s.BelongsToOther arrival.toId c → ¬arrival.Tells c := by
  constructor
  · intro h id c hc hmatch hother htells
    obtain ⟨outside, hchanged⟩ := told contexts hc (ne_zero hs hc) hmatch htells
    refine hchanged ?_
    have hmem : id ∈ connections := (hkeys id).mpr (by rw [hc]; rfl)
    obtain ⟨order, horder, hfind⟩ : ∃ order : List ℤ, order.Perm connections ∧
        s.findConnection order arrival.fromId = some id :=
      FirstMatch.exists_first hmem ((any_matchesPeer hc).trans hmatch)
    have hkept := h outside order horder id c hc hother
    rwa [handle, hfind] at hkept
  · intro h outside order horder id c hc hother
    rw [handle]
    cases hfind : s.findConnection order arrival.fromId with
    | none => exact handleFound_elsewhere hc (ne_zero hs hc)
    | some found =>
      by_cases hfound : id = found
      · subst hfound
        have hmatch := (any_matchesPeer hc).symm.trans (FirstMatch.mem_of_first horder hfind).2
        rcases untold contexts outside hc (ne_zero hs hc) hmatch (h id c hc hmatch hother) with ⟨-,
          hrun⟩ | ⟨-, hrun⟩
        · rw [hrun, hc]
        · rw [hrun, ← hc]
      · exact handleFound_elsewhere hc hfound

/-- Where the call does the same for two connections, neither hears nor answers anything. -/
theorem order_iff (hs : s.WellFormed)
    (hkeys : ∀ id, id ∈ connections ↔ (s.connections id).isSome = true) :
    (∀ outside (order order' : List ℤ), order.Perm connections → order'.Perm connections →
      arrival.handle s order contexts outside = arrival.handle s order' contexts outside ∧
        arrival.sent s order contexts outside = arrival.sent s order' contexts outside) ↔
    ∀ id id' c c', s.connections id = some c → s.connections id' = some c' →
      c.matchesPeer arrival.fromId = true → c'.matchesPeer arrival.fromId = true → id ≠ id' →
      ¬arrival.Tells c ∧ ¬arrival.Announces s c ∧ ¬arrival.Acknowledged := by
  constructor
  · intro h id id' c c' hc hc' hmatch hmatch' hne
    have hsame outside : arrival.handleFound s contexts outside (some id) =
      arrival.handleFound s contexts outside (some id') :=
      FirstMatch.independent_iff.mp (fun order order' ho ho' => (h outside order order' ho ho').1)
        id ((hkeys id).mpr (by rw [hc]; rfl)) id' ((hkeys id').mpr (by rw [hc']; rfl))
        ((any_matchesPeer hc).trans hmatch) ((any_matchesPeer hc').trans hmatch')
    have hquiet : ¬arrival.Tells c := by
      intro htells
      obtain ⟨outside, hchanged⟩ := told contexts hc (ne_zero hs hc) hmatch htells
      rw [hsame outside] at hchanged
      exact hchanged (handleFound_elsewhere hc hne)
    have hquiet' : ¬arrival.Tells c' := by
      intro htells
      obtain ⟨outside, hchanged⟩ := told contexts hc' (ne_zero hs hc') hmatch' htells
      rw [← hsame outside] at hchanged
      exact hchanged (handleFound_elsewhere hc' hne.symm)
    refine ⟨hquiet, fun hannounces => ?_, fun hacknowledged => ?_⟩
    swap
    · -- The acknowledgement tells which of the two was found.
      have hsent := FirstMatch.independent_iff.mp
        (fun order order' ho ho' => (h (fun _ => sampleInput) order order' ho ho').2) id
        ((hkeys id).mpr (by rw [hc]; rfl)) id' ((hkeys id').mpr (by rw [hc']; rfl))
        ((any_matchesPeer hc).trans hmatch) ((any_matchesPeer hc').trans hmatch')
      obtain ⟨packet, addr, port, hfirst⟩ :=
        sent_acknowledged contexts (fun _ => sampleInput) hc (ne_zero hs hc)
        (live_of_matchesPeer hmatch).1 hacknowledged
      obtain ⟨packet', addr', port', hsecond⟩ :=
        sent_acknowledged contexts (fun _ => sampleInput) hc'
        (ne_zero hs hc') (live_of_matchesPeer hmatch').1 hacknowledged
      have hone := List.head_eq_of_cons_eq (hfirst.symm.trans (hsent.trans hsecond))
      have hconn := congrArg SentControl.fromConnId hone
      exact hne ((hs.connId id c hc).symm.trans (hconn.trans (hs.connId id' c' hc')))
    obtain ⟨hcontra, -⟩ | ⟨-, hrun⟩ :=
      untold contexts (fun _ => sampleInput) hc (ne_zero hs hc) hmatch hquiet
    · exact hcontra hannounces
    · rcases untold contexts (fun _ => sampleInput) hc' (ne_zero hs hc') hmatch' hquiet' with ⟨-,
        hrun'⟩ | ⟨-, hrun'⟩
      · have hqueue := congrArg State.dispatchQueue (hrun.symm.trans ((hsame _).trans hrun'))
        exact absurd hqueue (by simp)
      · have hqueue := congrArg State.dispatchQueue (hrun.symm.trans ((hsame _).trans hrun'))
        have hlast := List.append_cancel_left hqueue
        have hid := congrArg (List.map QueuedDispatch.connId) hlast
        exact hne (List.head_eq_of_cons_eq hid)
  · intro h outside order order' ho ho'
    suffices hboth : ∀ id ∈ connections, ∀ id' ∈ connections,
        ((s.connections id).any fun ci => ci.matchesPeer arrival.fromId) = true →
        ((s.connections id').any fun ci => ci.matchesPeer arrival.fromId) = true →
        arrival.handleFound s contexts outside (some id) = arrival.handleFound s contexts outside
          (some id') ∧
          arrival.sentFound s contexts outside (some id) = arrival.sentFound s contexts outside
            (some id') from
      ⟨FirstMatch.independent_iff.mpr (fun id hid id' hid' hm hm' =>
        (hboth id hid id' hid' hm hm').1) order order' ho ho',
        FirstMatch.independent_iff.mpr (fun id hid id' hid' hm hm' =>
          (hboth id hid id' hid' hm hm').2) order order' ho ho'⟩
    intro id hid id' hid' hmatch hmatch'
    obtain ⟨c, hc⟩ := Option.isSome_iff_exists.mp ((hkeys id).mp hid)
    obtain ⟨c', hc'⟩ := Option.isSome_iff_exists.mp ((hkeys id').mp hid')
    rw [any_matchesPeer hc] at hmatch
    rw [any_matchesPeer hc'] at hmatch'
    by_cases hne : id = id'
    · rw [hne]
      exact ⟨rfl, rfl⟩
    · have hrun {id : ℤ} {c : ConnectionInfo} (hc : s.connections id = some c)
        (hmatch : c.matchesPeer arrival.fromId = true)
          (hquiet : ¬arrival.Tells c ∧ ¬arrival.Announces s c ∧ ¬arrival.Acknowledged) :
          arrival.handleFound s contexts outside (some id) = s ∧
            arrival.sentFound s contexts outside (some id) = [] := by
        refine ⟨?_, sent_untold contexts outside hc (ne_zero hs hc)
          (live_of_matchesPeer hmatch).1 hquiet.1 hquiet.2.2⟩
        rcases untold contexts outside hc (ne_zero hs hc) hmatch hquiet.1 with ⟨-,
          hrun⟩ | ⟨hannounces, -⟩
        · exact hrun
        · exact absurd hannounces hquiet.2.1
      obtain ⟨hstate, hsent⟩ := hrun hc hmatch (h id id' c c' hc hc' hmatch hmatch' hne)
      obtain ⟨hstate', hsent'⟩ :=
        hrun hc' hmatch' (h id' id c' c hc' hc hmatch' hmatch (Ne.symm hne))
      exact ⟨hstate.trans hstate'.symm, hsent.trans hsent'.symm⟩

/-- A call comes to an end with its fifth section. Packets act on the connections of the addressee
alone, in every order, just if no connection of somebody else has news to hear from them, nor has
one of several to the sender. -/
theorem actsOnAddressed_iff (arrival : Arrival) (s : State) (hs : s.WellFormed)
    (connections contexts : List ℤ)
    (hkeys : ∀ id, id ∈ connections ↔ (s.connections id).isSome = true) :
    (∀ found outside,
      (runSections (arrival.inputs s found contexts outside) 5 s [arrival.task]).2 = []) ∧
    (arrival.ActsOnAddressed s connections contexts ↔ arrival.Addressed s) := by
  refine ⟨fun found outside => handle_done found, ?_, ?_⟩
  · exact fun h => ⟨(others_iff hs hkeys).mp h.others, (order_iff hs hkeys).mp h.order⟩
  · exact fun h => ⟨(others_iff hs hkeys).mpr h.others, (order_iff hs hkeys).mpr h.single⟩

end Arrival

/-! ## Examples -/

/-- A message from the peer `abc` that it has closed the connection to `bbc`. -/
def sampleClose : Arrival := ⟨1, 1, .control ⟨.close, sampleName 97, sampleName 98, 0, .terminate⟩⟩

theorem actsOnAddressed_sample :
    sampleClose.ActsOnAddressed (sampleConfig sampleActivated).state [1] [1] := by
  have hwf : (sampleConfig sampleActivated).state.WellFormed :=
    wellFormed_of_reachable (sampleConfig_anyRun (by decide))
  have hconnections : ∀ id, id ≠ 1 → (sampleConfig sampleActivated).state.connections id = none :=
    fun id hne => Function.update_of_ne hne _ _
  refine (Arrival.actsOnAddressed_iff sampleClose _ hwf [1] [1] fun id => ?_).2.mpr ⟨?_, ?_⟩
  · rw [List.mem_singleton]
    constructor
    · rintro rfl
      rfl
    · intro hsome
      by_contra hne
      rw [hconnections id hne] at hsome
      cases hsome
  · rintro id c hc - ⟨ctx, hctx, howner⟩ -
    have hid : id = 1 := by
      by_contra hne
      cases (hconnections id hne).symm.trans hc
    subst hid
    obtain rfl := Option.some.inj hc
    obtain rfl := Option.some.inj hctx
    exact howner (by decide)
  · intro id id' c c' hc hc' _ _ hne
    have hid : id = 1 := by
      by_contra hid
      cases (hconnections id hid).symm.trans hc
    have hid' : id' = 1 := by
      by_contra hid'
      cases (hconnections id' hid').symm.trans hc'
    exact absurd (hid.trans hid'.symm) hne

/-- Two users, with a connection to the peer `abc` each. -/
def sampleTwoUsers : List (Sections.Move Task Input) :=
  sampleCall 3 (.createContext (sampleNpId 98 0) true 0) 1 ++ sampleCall 3
    (.createContext (sampleNpId 99 0) true 0) 1 ++
    sampleCall 3 (.activateConnection 1 (sampleNpId 97 0)) 1 ++ sampleCall 3
      (.activateConnection 2 (sampleNpId 97 0)) 1

/-- In the other order of the map it is the connection of the other user that is closed. -/
theorem actsOnAddressed_fails :
    signaling.Reachable Sections.anyRun (State.initial 0 0) (sampleConfig sampleTwoUsers) ∧
      (∀ id, id ∈ [1, 2] ↔ ((sampleConfig sampleTwoUsers).state.connections id).isSome = true) ∧
      ¬sampleClose.ActsOnAddressed (sampleConfig sampleTwoUsers).state [1, 2] [1, 2] := by
  refine ⟨sampleConfig_anyRun (by decide), fun id => ?_, fun h => ?_⟩
  · by_cases hfirst : id = 1
    · subst hfirst
      exact iff_of_true (by decide) rfl
    by_cases hsecond : id = 2
    · subst hsecond
      exact iff_of_true (by decide) rfl
    have hnone : (sampleConfig sampleTwoUsers).state.connections id = none :=
      (Function.update_of_ne hsecond _ _).trans (Function.update_of_ne hfirst _ _)
    rw [hnone]
    refine iff_of_false (fun hmem => ?_) Bool.false_ne_true
    rcases List.mem_pair.mp hmem with hid | hid
    · exact hfirst hid
    · exact hsecond hid
  · have hkept :=
      h.others (fun _ => sampleInput) [2, 1] (List.Perm.swap _ _ _) 2 _ rfl ⟨_, rfl, by decide⟩
    have hclosed : (sampleClose.handle (sampleConfig sampleTwoUsers).state [2, 1] [1, 2] fun _ =>
      sampleInput).connections 2 = none := by decide
    cases hclosed.symm.trans hkept

end PS4Droid.Np
