import Mathlib.Algebra.GroupWithZero.Nat
import PS4Droid.Np.Established

/-!
# Two endpoints

The handshakes that an endpoint receives are ones that the other has sent, at any time, in any order
and any number of times. An established connection is backed by a `CheckAck` of the peer.
-/

namespace PS4Droid.Np

/-! ## The network -/

/-- An endpoint that can receive the given handshakes. -/
def endpoint (received : Datagram → Prop) : Sections.Machine State Task Input where
  exec := exec
  allowed := Allowed
  entry number task := isEntry number task = true ∧
    ∀ fromAddr fromPort datagram, task = .handleHandshakePacket fromAddr fromPort datagram →
      received datagram

structure Net where
  left : Sections.Config State Task
  right : Sections.Config State Task

inductive Net.Step : Net → Net → Prop
  | left {net : Net} {config : Sections.Config State Task} :
    (endpoint (· ∈ net.right.state.sent)).Step Sections.anyRun net.left config →
      Step net ⟨config, net.right⟩
  | right {net : Net} {config : Sections.Config State Task} :
    (endpoint (· ∈ net.left.state.sent)).Step Sections.anyRun net.right config →
      Step net ⟨net.left, config⟩

/-- Two endpoints with idle threads. -/
def Net.initial (seed seed' : Fin 0x8000) (lastContext lastContext' : Fin 9) (count count' : ℕ) :
    Net where
  left := ⟨State.initial seed lastContext, List.replicate count []⟩
  right := ⟨State.initial seed' lastContext', List.replicate count' []⟩

inductive Net.Reachable : Net → Prop
  | start (seed seed' : Fin 0x8000) (lastContext lastContext' : Fin 9) (count count' : ℕ) :
    Reachable (.initial seed seed' lastContext lastContext' count count')
  | step {net net' : Net} : Reachable net → net.Step net' → Reachable net'

/-! ## Handshakes sent -/

variable {s : State} {c : ConnectionInfo} {d : Datagram} {input : Input} {task : Task} {id : ℤ}
  {tasks : List Task} {net : Net}

theorem State.mem_send {datagram : Datagram}
    (h : d ∈ (s.send c datagram).sent) : d ∈ s.sent ∨ d = datagram := by
  rw [State.send] at h
  split at h
  · exact .inl h
  · exact (List.mem_append.mp h).imp_right List.mem_singleton.mp

theorem State.sent_subset_send (c : ConnectionInfo) (datagram : Datagram) :
    s.sent ⊆ (s.send c datagram).sent := by
  rw [State.send]
  split
  · exact fun _ h => h
  · exact List.subset_append_left _ _

theorem ConnectionInfo.stepKind_ne_checkAck (c : ConnectionInfo) : c.stepKind ≠ .checkAck := by
  rw [ConnectionInfo.stepKind]
  split <;> exact HandshakeKind.noConfusion

/-- What is sent was held as an answer, or acknowledges nothing. -/
theorem mem_exec_sent (h : d ∈ (exec input task s).1.sent) :
    d ∈ s.sent ∨ (∃ id, task = .sendHandshake id d) ∨ d.packet.kind ≠ .checkAck := by
  by_cases hsend : task.IsSend
  · cases task with
    | sendHandshake connId datagram =>
      rw [exec, onConnection] at h
      split at h
      · exact .inl h
      · rcases State.mem_send h with hold | rfl
        · exact .inl hold
        · exact .inr (.inl ⟨connId, rfl⟩)
    | startHandshakeInitiator connId =>
      rw [exec, startHandshakeInitiator] at h
      dsimp only at h
      split at h
      · exact .inl h
      · rcases State.mem_send h with hold | rfl
        · exact .inl hold
        · exact .inr (.inr HandshakeKind.noConfusion)
    | stepCallout connId =>
      rw [exec, stepCallout, onConnection] at h
      split at h
      · exact .inl h
      dsimp only at h
      split at h
      · exact .inl h
      split at h
      · rcases State.mem_send h with hold | rfl
        · exact .inl hold
        · exact .inr (.inr (ConnectionInfo.stepKind_ne_checkAck _))
      · exact .inl h
    | _ => exact absurd hsend id
  · by_cases hdispatch : task.IsDispatch
    · exact .inl ((@exec_quiet_of_dispatch s input task hdispatch).sent ▸ h)
    · exact .inl ((@exec_quiet s input task hdispatch hsend).sent ▸ h)

theorem sent_subset_exec : s.sent ⊆ (exec input task s).1.sent := by
  by_cases hsend : task.IsSend
  · cases task with
    | sendHandshake connId datagram =>
      rw [exec, onConnection]
      split
      · exact fun _ h => h
      · exact State.sent_subset_send _ _
    | startHandshakeInitiator connId =>
      rw [exec, startHandshakeInitiator]
      dsimp only
      split
      · exact fun _ h => h
      · exact State.sent_subset_send (s := s.setConnection connId _) _ _
    | stepCallout connId =>
      rw [exec, stepCallout, onConnection]
      split
      · exact fun _ h => h
      dsimp only
      split
      · exact fun _ h => h
      split
      · exact State.sent_subset_send (s := s.setConnection connId _) _ _
      · exact fun _ h => h
    | _ => exact absurd hsend id
  · by_cases hdispatch : task.IsDispatch
    · have hsame : (exec input task s).1.sent = s.sent := (exec_quiet_of_dispatch hdispatch).sent
      rw [hsame]
      exact fun _ h => h
    · rw [(exec_quiet hdispatch hsend).sent]
      exact fun _ h => h

theorem Change.becomes_established {c' : ConnectionInfo}
    (h : Change s input id task c c' tasks) (hstate : c'.state = .established) :
    c.state = .established ∨ ∃ hint, task = .establishConnection id hint := by
  cases h with
  | offer =>
    rw [ConnectionInfo.offered, ConnectionInfo.keepTimeout_eq] at hstate
    split at hstate
    · cases hstate
    · exact .inl hstate
  | accept =>
    rw [ConnectionInfo.accepted] at hstate
    split at hstate
    · cases hstate
    · exact .inl hstate
  | check =>
    rw [ConnectionInfo.checked] at hstate
    split at hstate
    · cases hstate
    · exact .inl hstate
  | request hid hlive =>
    rw [ConnectionInfo.requested_of_live hlive] at hstate
    exact .inl hstate
  | step =>
    rw [ConnectionInfo.stepFired] at hstate
    split at hstate <;> exact .inl hstate
  | close => cases hstate
  | establish => exact .inr ⟨_, rfl⟩
  | start =>
    rw [ConnectionInfo.startHandshake, ConnectionInfo.keepTimeout_eq] at hstate
    cases hstate
  | _ => exact .inl hstate

theorem Creation.not_established
    (h : Creation s input id task c tasks) : c.state ≠ .established := by
  cases h with
  | activate | activateA => exact ConnState.noConfusion
  | answer =>
    rw [ConnectionInfo.requested, ConnectionInfo.keepTimeout_eq]
    split <;> exact ConnState.noConfusion

/-! ## Runs of both endpoints -/

/-- The endpoint with this state has sent the `Check` that the handshake answers. -/
def Answers (s : State) (d : Datagram) : Prop :=
  ∃ k ∈ s.sent, k.packet.kind = .check ∧ k.life = d.answers ∧ k.packet.nonce = d.packet.nonce

/-- What an endpoint owes to the handshakes of the other. -/
structure Backed (own other : Sections.Config State Task) : Prop where
  wellFormed : own.state.WellFormed
  received : ∀ fromAddr fromPort d, .handleHandshakePacket fromAddr fromPort d ∈ own.held →
    d ∈ other.state.sent
  answering : ∀ id d, .sendHandshake id d ∈ own.held → d.packet.kind = .checkAck →
    Answers other.state d
  answered : ∀ d ∈ own.state.sent, d.packet.kind = .checkAck → Answers other.state d
  establishing : ∀ id hint, .establishConnection id hint ∈ own.held →
    ∃ d ∈ other.state.sent, d.packet.kind = .checkAck
  established : ∀ id c, own.state.connections id = some c → c.state = .established →
    ∃ d ∈ other.state.sent, d.packet.kind = .checkAck

theorem Backed.mono {own other other' : Sections.Config State Task} (h : Backed own other)
    (hsent : other.state.sent ⊆ other'.state.sent) : Backed own other' where
  wellFormed := h.wellFormed
  received fromAddr fromPort d hd := hsent (h.received fromAddr fromPort d hd)
  answering id d hd hkind := by
    obtain ⟨k, hk, hanswers⟩ := h.answering id d hd hkind
    exact ⟨k, hsent hk, hanswers⟩
  answered d hd hkind := by
    obtain ⟨k, hk, hanswers⟩ := h.answered d hd hkind
    exact ⟨k, hsent hk, hanswers⟩
  establishing id hint hmem := by
    obtain ⟨d, hd, hkind⟩ := h.establishing id hint hmem
    exact ⟨d, hsent hd, hkind⟩
  established id c hc hstate := by
    obtain ⟨d, hd, hkind⟩ := h.established id c hc hstate
    exact ⟨d, hsent hd, hkind⟩

section Steps

variable {own own' other : Sections.Config State Task}

theorem sent_subset_step (h : (endpoint (· ∈ other.state.sent)).Step Sections.anyRun own own') :
    own.state.sent ⊆ own'.state.sent := by
  cases h with
  | start hentry => exact fun _ h => h
  | run hallowed hok => exact sent_subset_exec

variable {before after : List (List Task)} {task : Task} {rest : List Task}

/-- A section that is held after one was run was held before, or follows it. -/
theorem mem_held_of_run {t : Task} {tasks : List Task}
    (h : t ∈ (before ++ (tasks ++ rest) :: after).flatten) :
    t ∈ (before ++ (task :: rest) :: after).flatten ∨ t ∈ tasks := by
  simp only [List.flatten_append, List.flatten_cons, List.mem_append, List.mem_cons] at h ⊢
  rcases h with h | (h | h) | h
  · exact .inl (.inl h)
  · exact .inr h
  · exact .inl (.inr (.inl (.inr h)))
  · exact .inl (.inr (.inr h))

theorem task_mem_held :
    task ∈ (before ++ (task :: rest) :: after).flatten := by
  simp

theorem Backed.step (h : Backed own other)
    (hstep : (endpoint (· ∈ other.state.sent)).Step Sections.anyRun own own') :
    Backed own' other := by
  cases hstep with
  | @start s before after task hentry =>
    have hold {t : Task} (ht : t ∈ (before ++ [task] :: after).flatten) :
        t ∈ (before ++ [] :: after).flatten ∨ t = task := by
      simp only [List.flatten_append, List.flatten_cons, List.mem_append,
        List.mem_singleton] at ht ⊢
      rcases ht with ht | ht | ht
      · exact .inl (.inl ht)
      · exact .inr ht
      · exact .inl (.inr (.inr ht))
    refine ⟨h.wellFormed, ?_, ?_, h.answered, ?_, h.established⟩
    · intro fromAddr fromPort d hd
      rcases hold hd with hd | rfl
      · exact h.received fromAddr fromPort d hd
      · exact hentry.2 fromAddr fromPort d rfl
    · intro id d hd
      rcases hold hd with hd | rfl
      · exact h.answering id d hd
      · cases isStart_of_isEntry hentry.1
    · intro id hint hmem
      rcases hold hmem with hmem | rfl
      · exact h.establishing id hint hmem
      · cases isStart_of_isEntry hentry.1
  | @run s before after task rest input hallowed hok =>
    have hfollows : ∀ t ∈ (exec input task s).2, Follows s task t := fun t ht => (exec_emits t ht).1
    have hwf := h.wellFormed
    refine ⟨hwf.exec hallowed, ?_, ?_, ?_, ?_, ?_⟩
    · intro fromAddr fromPort d hd
      rcases mem_held_of_run hd with hd | hd
      · exact h.received fromAddr fromPort d hd
      · cases hfollows _ hd with
        | internal hinternal => exact hinternal.elim
    · intro id d hd hkind
      rcases mem_held_of_run hd with hd | hd
      · exact h.answering id d hd hkind
      · cases hfollows _ hd with
        | send htask hanswer =>
          subst htask
          obtain ⟨hcheck, hlife, hnonce⟩ := hanswer hkind
          exact ⟨_, h.received _ _ _ task_mem_held, hcheck, hlife.symm, hnonce.symm⟩
        | internal hinternal => exact hinternal.elim
    · intro d hd hkind
      rcases mem_exec_sent hd with hd | ⟨id, rfl⟩ | hother
      · exact h.answered d hd hkind
      · exact h.answering id d task_mem_held hkind
      · exact absurd hkind hother
    · intro id hint hmem
      rcases mem_held_of_run hmem with hmem | hmem
      · exact h.establishing id hint hmem
      · cases hfollows _ hmem with
        | acknowledged htask hkind =>
          subst htask
          exact ⟨_, h.received _ _ _ task_mem_held, hkind⟩
        | again hc hstate => exact h.established _ _ hc hstate
        | internal hinternal => exact hinternal.elim
    · intro id c hc hstate
      obtain hsame | ⟨old, hbefore, hchange⟩ | ⟨_, hcreation⟩ := exec_cases hallowed hwf.zero hc
      · exact h.established id c hsame hstate
      · rcases hchange.becomes_established hstate with hold | ⟨hint, rfl⟩
        · exact h.established id _ hbefore hold
        · exact h.establishing id hint task_mem_held
      · exact absurd hstate hcreation.not_established

end Steps

theorem backed_initial (seed : Fin 0x8000) (lastContext : Fin 9) (count : ℕ)
    (other : Sections.Config State Task) :
    Backed ⟨State.initial seed lastContext, List.replicate count []⟩ other := by
  have hnil : (⟨State.initial seed lastContext, List.replicate count []⟩ :
    Sections.Config State Task).held = [] := by
    simp [Sections.Config.held]
  refine ⟨State.wellFormed_initial seed lastContext, ?_, ?_, ?_, ?_, ?_⟩
  · intro fromAddr fromPort d hd
    rw [hnil] at hd
    cases hd
  · intro id d hd
    rw [hnil] at hd
    cases hd
  · intro d hd
    cases hd
  · intro id hint hmem
    rw [hnil] at hmem
    cases hmem
  · intro id c hc
    cases hc

theorem backed_of_reachable (h : net.Reachable) :
    Backed net.left net.right ∧ Backed net.right net.left := by
  induction h with
  | start seed seed' lastContext lastContext' count count' =>
    exact ⟨backed_initial _ _ _ _, backed_initial _ _ _ _⟩
  | step _ hstep ih =>
    cases hstep with
    | left hleft => exact ⟨ih.1.step hleft, ih.2.mono (sent_subset_step hleft)⟩
    | right hright => exact ⟨ih.1.mono (sent_subset_step hright), ih.2.step hright⟩

/-- The peer has answered, with a `CheckAck`, a `Check` that this endpoint has sent. -/
def Acknowledged (own other : Sections.Config State Task) : Prop :=
  ∃ d ∈ other.state.sent, d.packet.kind = .checkAck ∧ Answers own.state d

/-- A handshake that is received was sent. -/
def wasSent (sent : List Datagram) : Sections.Move Task Input → Bool
  | .start _ (.handleHandshakePacket _ _ datagram) => decide (datagram ∈ sent)
  | _ => true

/-- A test for a move of an endpoint. -/
def checkEndpoint (sent : List Datagram) (config : Sections.Config State Task)
    (move : Sections.Move Task Input) : Bool :=
  checkMove (fun _ _ _ _ => true) config move && wasSent sent move

theorem legal_of_checkEndpoint {sent : List Datagram} {config : Sections.Config State Task}
    {move : Sections.Move Task Input} (h : checkEndpoint sent config move = true) :
    (endpoint (· ∈ sent)).Legal Sections.anyRun config move := by
  rw [checkEndpoint, Bool.and_eq_true] at h
  have hlegal : signaling.Legal Sections.anyRun config move :=
    legal_of_checkMove (fun _ _ _ _ _ => trivial) config move h.1
  cases move with
  | start thread task =>
    refine ⟨hlegal.1, hlegal.2, ?_⟩
    rintro fromAddr fromPort datagram rfl
    exact of_decide_eq_true h.2
  | run thread input => exact hlegal

def Net.play (net : Net) : Bool × Sections.Move Task Input → Net
  | (true, move) => ⟨signaling.play net.left move, net.right⟩
  | (false, move) => ⟨net.left, signaling.play net.right move⟩

def Net.check (net : Net) : Bool × Sections.Move Task Input → Bool
  | (true, move) => checkEndpoint net.right.state.sent net.left move
  | (false, move) => checkEndpoint net.left.state.sent net.right move

def Net.checkRun : Net → List (Bool × Sections.Move Task Input) → Bool
  | _, [] => true
  | net, move :: moves => net.check move && (net.play move).checkRun moves

theorem Net.Reachable.of_checkRun (h : net.Reachable)
    (moves : List (Bool × Sections.Move Task Input)) (hmoves : net.checkRun moves = true) :
    (moves.foldl Net.play net).Reachable := by
  induction moves generalizing net with
  | nil => exact h
  | cons move moves ih =>
    rw [Net.checkRun, Bool.and_eq_true] at hmoves
    refine ih (.step h ?_) hmoves.2
    match move, hmoves.1 with
    | (true, move), hmove => exact .left (legal_of_checkEndpoint hmove).step
    | (false, move), hmove => exact .right (legal_of_checkEndpoint hmove).step

/-- The peer `abc` of the left endpoint `bbc`. -/
def sampleRight : List (Sections.Move Task Input) :=
  sampleCall 3 (.createContext (sampleNpId 97 0) true 0) 1 ++
    sampleCall 3 (.activateConnection 1 (sampleNpId 98 0)) 1

/-- A handshake from the left endpoint for its first connection. -/
def fromLeft (kind : HandshakeKind) (nonce : ℤ) : Datagram :=
  ⟨⟨kind, sampleName 98, sampleName 97, 1, 0, 0, nonce⟩, 0, 0⟩

def fromRight (kind : HandshakeKind) (nonce : ℤ) : Datagram :=
  ⟨⟨kind, sampleName 97, sampleName 98, 1, 0, 0, nonce⟩, 0, 0⟩

/-- The left endpoint has a whole handshake. -/
def sampleFirst : List (Bool × Sections.Move Task Input) :=
  (sampleActivated ++ sampleCall 2 .processPendingActivations 4).map (true, ·) ++
  (sampleRight ++ sampleCall 0 (.handleHandshakePacket 1 1 (fromLeft .offer 0)) 2).map (false, ·) ++
  (sampleCall 0 (.handleHandshakePacket 1 1 (fromRight .accept 0)) 2).map (true, ·) ++
  (sampleCall 0 (.handleHandshakePacket 1 1 (fromLeft .check 1)) 2).map (false, ·) ++
  (sampleCall 0 (.handleHandshakePacket 1 1 (fromRight .checkAck 1)) 3).map (true, ·)

/-- It ends this connection, makes another, and receives the answer of the first again. -/
def sampleSecond : List (Bool × Sections.Move Task Input) :=
  (sampleCall 3 (.terminateConnection 1 1) 5 ++
    sampleCall 3 (.activateConnection 1 (sampleNpId 97 0)) 1 ++
    Sections.Move.start 0 (Task.handleHandshakePacket 1 1 (fromRight .checkAck 1)) ::
      List.replicate 3 (Sections.Move.run 0 { sampleInput with connection := 2 })).map (true, ·)

local instance seeds : NeZero 0x8000 := ⟨Nat.succ_ne_zero 32767⟩

local instance contextIds : NeZero 9 := ⟨Nat.succ_ne_zero 8⟩

def sampleNet (moves : List (Bool × Sections.Move Task Input)) : Net :=
  moves.foldl Net.play (.initial 0 0 0 0 4 4)

theorem sampleNet_reachable {moves : List (Bool × Sections.Move Task Input)}
    (h : (Net.initial 0 0 0 0 4 4).checkRun moves = true) : (sampleNet moves).Reachable :=
  (Net.Reachable.start 0 0 0 0 4 4).of_checkRun moves h

end PS4Droid.Np
