import PS4Droid.Np.Established

/-!
# Timers of connections

Every connection that waits for something has a timer, in every run in which no call and no packet
finds a connection whose timer it takes away or needs.
-/

namespace PS4Droid.Np

/-- A thread is closing the connection. -/
def Closing (held : List Task) (id : ℤ) : Prop :=
  (∃ error, .closeConnection id error ∈ held) ∨ .removeConnection id ∈ held

namespace ConnectionInfo

/-- The record is kept alive once its address is known. -/
def KeptAlive (c : ConnectionInfo) : Prop :=
  c.state = .established → c.stepCalloutArmed = true

/-- An established record that does not linger and that cannot be reached yet is kept alive. -/
def KeptAliveUnreached (c : ConnectionInfo) : Prop :=
  c.deactivateLingering = false → (c.addr = 0 ∨ c.port = 0) → c.KeptAlive

/-- The timers of a record. -/
structure Timed (c : ConnectionInfo) : Prop where
  handshake : c.isHandshaking = true → c.timeoutCalloutArmed = true
  lingering : c.state = .established → c.deactivateLingering = true → c.timeoutCalloutArmed = true
  watched : c.isWatched = true → c.stepCalloutArmed = true

/-- What `establishedFired` is for. -/
structure Marked (c : ConnectionInfo) : Prop where
  established : c.state = .established → c.establishedFired = true
  lingering : c.deactivateLingering = true → c.establishedFired = true

end ConnectionInfo

/-- An activation finds no handshake and no lingering connection that is reached, and the address of
an established connection becomes known only while it is kept alive. -/
def KeepsTimers (s : State) (held : List Task) (input : Input) : Task → Prop
  | .activateConnection ctxId peer =>
    ∀ ctx id c, activationContext s input ctxId peer = some (true, ctx) →
      s.npidToConn (ctxId, peer) = some id → s.connections id = some c → ¬ Closing held id →
        c.isHandshaking = false ∧
          (c.deactivateLingering = true → c.addr ≠ 0 → c.port ≠ 0 → c.KeptAlive)
  | .handleHandshakePacket _ _ datagram =>
    datagram.packet.kind = .offer ∨ datagram.packet.kind = .accept →
      ∀ c, s.connections input.connection = some c → ¬ Closing held input.connection →
        c.KeptAliveUnreached
  | .handleControlPacket _ _ packet =>
    packet.kind = .activationRequest ∨ packet.kind = .activationAck →
      ∀ c, s.connections input.connection = some c → ¬ Closing held input.connection →
        c.KeptAliveUnreached
  | .resolveActivation activation =>
    ∀ c, s.connections activation.connId = some c → ¬ Closing held activation.connId →
      c.KeptAliveUnreached
  | _ => True

namespace ConnectionInfo.Timed

variable {c c' : ConnectionInfo}

theorem of_handshake (hstate : c'.state ≠ .established) (htimeout : c'.timeoutCalloutArmed = true) :
    c'.Timed where
  handshake _ := htimeout
  lingering h := absurd h hstate
  watched h := by
    simp only [isWatched, Bool.and_eq_true, beq_iff_eq] at h
    exact absurd h.1.1.1 hstate

theorem of_inactive (hstate : c'.state = .inactive) : c'.Timed where
  handshake h := by simp [isHandshaking, hstate] at h
  lingering h := by simp [hstate] at h
  watched h := by simp [isWatched, hstate] at h

section Same

variable (hc : c.Timed) (hstate : c'.state = c.state)
  (htimeout : c'.timeoutCalloutArmed = c.timeoutCalloutArmed)
  (hstep : c'.stepCalloutArmed = c.stepCalloutArmed)
    (hlingering : c'.deactivateLingering = c.deactivateLingering)

include hc hstate htimeout hstep hlingering

theorem of_same (hwatched : c'.isWatched = true → c.stepCalloutArmed = true) : c'.Timed where
  handshake h := by
    rw [isHandshaking, hstate] at h
    rw [htimeout]
    exact hc.handshake h
  lingering := by
    rw [hstate, htimeout, hlingering]
    exact hc.lingering
  watched h := hstep.trans (hwatched h)

theorem of_located (hkept : c.KeptAliveUnreached) : c'.Timed := by
  refine of_same hc hstate htimeout hstep hlingering fun h => ?_
  simp only [isWatched, hstate, hlingering, Bool.and_eq_true, beq_iff_eq, Bool.not_eq_true',
    bne_iff_ne] at h
  by_cases hunreached : c.addr = 0 ∨ c.port = 0
  · exact hkept h.1.1.2 hunreached h.1.1.1
  · rw [not_or] at hunreached
    refine hc.watched ?_
    simp [isWatched, h.1.1, hunreached]

theorem of_eq (haddr : c'.addr = c.addr) (hport : c'.port = c.port) : c'.Timed := by
  refine of_same hc hstate htimeout hstep hlingering fun h => hc.watched ?_
  rwa [isWatched, hstate, hlingering, haddr, hport] at h

end Same

theorem reactivated (hc : c.Timed) (hhandshake : c.isHandshaking = false)
    (hkept : c.deactivateLingering = true → c.addr ≠ 0 → c.port ≠ 0 → c.KeptAlive) :
    (activatePeer.reactivated c).Timed where
  handshake h := by
    have hsame : c.isHandshaking = true := h
    rw [hhandshake] at hsame
    cases hsame
  lingering _ h := by cases h
  watched h := by
    have hreached : (c.state = .established ∧ c.addr ≠ 0) ∧ c.port ≠ 0 := by
      simpa [isWatched, activatePeer.reactivated, clearLingerAndTimeout, cancelTimeout] using h
    cases hlingering : c.deactivateLingering with
    | false =>
      refine hc.watched ?_
      simp [isWatched, hlingering, hreached]
    | true => exact hkept hlingering hreached.1.2 hreached.2 hreached.1.1

theorem offered (hc : c.Timed) (addr port mappedAddr : ℕ) (hkept : c.KeptAliveUnreached) :
    (c.offered true addr port mappedAddr).Timed := by
  rw [ConnectionInfo.offered, keepTimeout_eq]
  split
  · exact .of_handshake ConnState.noConfusion rfl
  · exact hc.of_located rfl rfl rfl rfl hkept

theorem accepted (hc : c.Timed) (addr port mappedAddr : ℕ) (hkept : c.KeptAliveUnreached) :
    (c.accepted true addr port mappedAddr).Timed := by
  rw [ConnectionInfo.accepted]
  split
  · rename_i hexpects
    have hstate := expectsAccept_state hexpects
    refine .of_handshake ConnState.noConfusion ?_
    exact hc.handshake (by simpa [isHandshaking, and_comm] using hstate)
  · exact hc.of_located rfl rfl rfl rfl hkept

theorem checked (hc : c.Timed) : c.checked.Timed := by
  rw [ConnectionInfo.checked]
  split
  · rename_i hstate
    refine .of_handshake ConnState.noConfusion (hc.handshake ?_)
    rcases hstate with hstate | hstate <;> simp [isHandshaking, hstate]
  · exact hc

theorem establish (hc : c.Timed) (hmarked : c.Marked) (nowUs : ℤ) (peerActivatedHint : Bool) :
    (c.establish true nowUs peerActivatedHint).Timed := by
  rw [ConnectionInfo.establish, enterEstablished]
  split
  · exact hc.of_eq rfl rfl rfl rfl rfl rfl
  · rename_i hfired
    refine ⟨?_, ?_, fun _ => rfl⟩
    · intro h
      cases h
    · intro _ hlingering
      exact absurd (hmarked.lingering hlingering) hfired

theorem stepFired (hc : c.Timed) (nowUs : ℤ) :
    (c.stepFired true nowUs).Timed ∨ (c.isWatched && c.isSilent nowUs) = true := by
  rw [ConnectionInfo.stepFired]
  split
  · exact .inl ⟨hc.handshake, hc.lingering, fun _ => rfl⟩
  · rename_i hidle
    by_cases hwatched : c.isWatched = true
    · cases hsilent : c.isSilent nowUs with
      | false => exact absurd (by simp [hwatched, hsilent]) hidle
      | true => exact .inr (by rw [hwatched, Bool.true_and])
    · exact .inl ⟨hc.handshake, hc.lingering, fun h => absurd h hwatched⟩

end ConnectionInfo.Timed

theorem ConnectionInfo.Marked.of_eq {c c' : ConnectionInfo} (hc : c.Marked)
    (hstate : c'.state = .established → c.state = .established)
    (hlingering : c'.deactivateLingering = true → c.deactivateLingering = true)
    (hfired : c'.establishedFired = c.establishedFired) : c'.Marked where
  established h := hfired.trans (hc.established (hstate h))
  lingering h := hfired.trans (hc.lingering (hlingering h))

variable {s : State} {input : Input} {task : Task} {tasks before after : List Task} {id : ℤ}

theorem Change.marked {connId : ℤ} {c c' : ConnectionInfo}
    (h : Change s input connId task c c' tasks) (hc : c.Marked) : c'.Marked := by
  cases h with
  | reactivate => exact hc.of_eq id (fun h => by cases h) rfl
  | offer =>
    rw [ConnectionInfo.offered, ConnectionInfo.keepTimeout_eq]
    split
    · exact hc.of_eq (fun h => by cases h) id rfl
    · exact hc.of_eq id id rfl
  | accept =>
    rw [ConnectionInfo.accepted]
    split
    · exact hc.of_eq (fun h => by cases h) id rfl
    · exact hc.of_eq id id rfl
  | check =>
    rw [ConnectionInfo.checked]
    split
    · exact hc.of_eq (fun h => by cases h) id rfl
    · exact hc.of_eq id id rfl
  | request =>
    rw [ConnectionInfo.requested, ConnectionInfo.keepTimeout_eq]
    split <;> exact hc.of_eq id id rfl
  | step =>
    rw [ConnectionInfo.stepFired]
    split <;> exact hc.of_eq id id rfl
  | linger hstate => exact ⟨fun _ => hc.established hstate, fun _ => hc.established hstate⟩
  | close => exact hc.of_eq (fun h => by cases h) id rfl
  | establish =>
    rw [ConnectionInfo.establish, ConnectionInfo.enterEstablished]
    split
    · exact hc.of_eq id id rfl
    · exact ⟨fun _ => rfl, fun _ => rfl⟩
  | start =>
    rw [ConnectionInfo.startHandshake, ConnectionInfo.keepTimeout_eq]
    exact hc.of_eq (fun h => by cases h) id rfl
  | _ => exact hc.of_eq id id rfl

/-- A change keeps the timers, or a thread closes the connection. -/
theorem Change.timed {held : List Task}
    {c c' : ConnectionInfo} (h : Change s input id task c c' tasks)
    (hactive : s.calloutCtxActive = true) (hbefore : s.connections id = some c) (hc : c.Timed)
    (hmarked : c.Marked) (hok : KeepsTimers s held input task) (hclosing : ¬ Closing held id) :
    c'.Timed ∨ ∃ error, .closeConnection id error ∈ tasks := by
  have hreceived : (c.received input.nowUs).Timed := hc.of_eq rfl rfl rfl rfl rfl rfl
  cases h with
  | reactivate hagreed hkey =>
    obtain ⟨hhandshake, hkept⟩ := hok _ id c hagreed hkey hbefore hclosing
    exact .inl (hc.reactivated hhandshake hkept)
  | offer hid _ _ hkind =>
    subst hid
    rw [hactive]
    exact .inl (hreceived.offered _ _ _ (hok (.inl hkind) c hbefore hclosing))
  | accept hid _ _ hkind =>
    subst hid
    rw [hactive]
    exact .inl (hreceived.accepted _ _ _ (hok (.inr hkind) c hbefore hclosing))
  | check => exact .inl hreceived.checked
  | checkAck => exact .inl hreceived
  | otherPacket => exact .inl hreceived
  | request hid hlive _ hkind =>
    subst hid
    have hkept := hok (.inl hkind) c hbefore hclosing
    rw [ConnectionInfo.requested_of_live hlive]
    exact .inl (hc.of_located rfl rfl rfl rfl hkept)
  | acknowledge hid _ _ hkind =>
    subst hid
    exact .inl (hc.of_located rfl rfl rfl rfl (hok (.inr hkind) c hbefore hclosing))
  | timeout =>
    split
    · exact .inr ⟨.timeout, List.mem_singleton_self _⟩
    · rename_i hwaits
      rw [not_or, Decidable.not_not, Bool.not_eq_true] at hwaits
      refine .inl ⟨?_, ?_, hc.watched⟩
      · intro h
        have hsame : c.isHandshaking = true := h
        simp [ConnectionInfo.isHandshaking, hwaits.1] at hsame
      · intro _ h
        cases hwaits.2.symm.trans h
  | step =>
    rw [hactive]
    rcases hc.stepFired input.nowUs with htimed | hsilent
    · exact .inl htimed
    · rw [if_pos hsilent]
      exact .inr ⟨.timeout, List.mem_singleton_self _⟩
  | linger hstate =>
    rw [hactive]
    refine .inl ⟨fun _ => rfl, fun _ _ => rfl, ?_⟩
    intro h
    simp [ConnectionInfo.isWatched, ConnectionInfo.linger, ConnectionInfo.armTimeout,
      ConnectionInfo.cancelStep] at h
  | close => exact .inl (.of_inactive rfl)
  | establish =>
    rw [hactive]
    exact .inl (hc.establish hmarked _ _)
  | start =>
    rw [hactive, ConnectionInfo.startHandshake, ConnectionInfo.keepTimeout_eq]
    exact .inl (.of_handshake ConnState.noConfusion rfl)
  | resolve => exact .inl (hc.of_located rfl rfl rfl rfl (hok c hbefore hclosing))
  | peerEstablished => exact .inl (hc.of_eq rfl rfl rfl rfl rfl rfl)

theorem Creation.timed {c : ConnectionInfo}
    (h : Creation s input id task c tasks) (hactive : s.calloutCtxActive = true) :
    c.Timed ∧ c.Marked := by
  cases h with
  | activate =>
    refine ⟨.of_handshake ConnState.noConfusion hactive, ?_, ?_⟩ <;> exact fun h => by cases h
  | activateA =>
    refine ⟨.of_inactive rfl, ?_, ?_⟩ <;> exact fun h => by cases h
  | answer =>
    rw [ConnectionInfo.requested, ConnectionInfo.keepTimeout_eq]
    refine ⟨.of_inactive rfl, ?_, ?_⟩ <;> exact fun h => by cases h

/-- The records of the state, with the sections held. -/
structure TimersKept (s : State) (held : List Task) : Prop where
  wellFormed : s.WellFormed
  dead : DeadHeld s held
  marked : ∀ id c, s.connections id = some c → c.Marked
  timed : ∀ id c, s.connections id = some c → ¬ Closing held id → c.Timed

/-- A section that closes a connection leaves it inactive or being removed. -/
theorem closing_exec {c : ConnectionInfo} (hdead : DeadHeld s (before ++ task :: after))
    (hclosing : Closing (before ++ task :: after) id)
    (hc : (exec input task s).1.connections id = some c) :
    Closing (before ++ ((exec input task s).2 ++ after)) id ∨ c.state = .inactive := by
  rcases hclosing with ⟨error, hmem⟩ | hmem
  · by_cases htask : Task.closeConnection id error = task
    · subst htask
      rw [exec, closeConnection, onConnection] at hc
      split at hc
      · rename_i hnone
        cases hnone.symm.trans hc
      · rename_i c₀ hc₀
        split at hc
        · rename_i hclosed
          obtain rfl := Option.some.inj (hc₀.symm.trans hc)
          rcases hclosed with hinactive | hfired
          · exact .inr hinactive
          · exact .inl (.inr (Sections.mem_of_run (hdead id _ hc₀ hfired) Task.noConfusion))
        · rw [State.setConnection_connections, Function.update_self] at hc
          obtain rfl := Option.some.inj hc
          exact .inr rfl
    · exact .inl (.inl ⟨error, Sections.mem_of_run hmem htask⟩)
  · by_cases htask : Task.removeConnection id = task
    · subst htask
      simp [exec] at hc
    · exact .inl (.inr (Sections.mem_of_run hmem htask))

theorem TimersKept.exec
    (h : TimersKept s (before ++ task :: after)) (hallowed : Allowed s input task)
    (hok : KeepsTimers s (before ++ task :: after) input task) :
    TimersKept (exec input task s).1 (before ++ ((exec input task s).2 ++ after)) where
  wellFormed := h.wellFormed.exec hallowed
  dead := deadHeld_exec hallowed h.wellFormed h.dead
  marked id c hc := by
    obtain hsame | ⟨old, hbefore, hchange⟩ | ⟨_, hcreation⟩ :=
      exec_cases hallowed h.wellFormed.zero hc
    · exact h.marked id c hsame
    · exact hchange.marked (h.marked id _ hbefore)
    · exact (hcreation.timed h.wellFormed.calloutCtxActive).2
  timed id c hc hclosing := by
    by_cases hclosed : Closing (before ++ task :: after) id
    · exact .of_inactive ((closing_exec h.dead hclosed hc).resolve_left hclosing)
    obtain hsame | ⟨old, hbefore, hchange⟩ | ⟨_, hcreation⟩ :=
      exec_cases hallowed h.wellFormed.zero hc
    · exact h.timed id c hsame hclosed
    · have hchanged :=
        hchange.timed h.wellFormed.calloutCtxActive hbefore (h.timed id _ hbefore hclosed)
        (h.marked id _ hbefore) hok hclosed
      refine hchanged.resolve_right ?_
      rintro ⟨error, hmem⟩
      exact hclosing (.inl ⟨error, Sections.mem_of_follows hmem⟩)
    · exact (hcreation.timed h.wellFormed.calloutCtxActive).1

section Runs

variable {seed : Fin 0x8000} {lastContext : Fin 9} {config : Sections.Config State Task}

theorem Closing.of_start {before after : List Task} {task : Task} {id : ℤ}
    (h : Closing (before ++ after) id) :
    Closing (before ++ task :: after) id := by
  rcases h with ⟨error, h⟩ | h
  · exact .inl ⟨error, Sections.mem_of_start h⟩
  · exact .inr (Sections.mem_of_start h)

theorem timersKept_of_reachable
    (h : signaling.Reachable KeepsTimers (State.initial seed lastContext) config) :
    TimersKept config.state config.held := by
  refine h.held_invariant ?_ ?_ ?_
  · refine ⟨State.wellFormed_initial seed lastContext, ?_, ?_, ?_⟩ <;>
    · intro id c hc
      cases hc
  · intro s before after task number _ hinv
    refine ⟨hinv.wellFormed, ?_, hinv.marked, ?_⟩
    · intro id c hc hdead
      exact Sections.mem_of_start (hinv.dead id c hc hdead)
    · intro id c hc hclosing
      exact hinv.timed id c hc fun h => hclosing h.of_start
  · intro s before after task input hallowed hok hinv
    exact hinv.exec hallowed hok

/-- Every connection that no thread is closing has the timer it needs. -/
theorem timers_armed (h : signaling.Reachable KeepsTimers (State.initial seed lastContext) config)
    {id : ℤ}
    {c : ConnectionInfo} (hc : config.state.connections id = some c)
    (hclosing : ¬ Closing config.held id) :
    (c.state ≠ .inactive → c.state ≠ .established → c.timeoutCalloutArmed = true) ∧
    (c.state = .established → c.deactivateLingering = true → c.timeoutCalloutArmed = true) ∧
    (c.state = .established → c.deactivateLingering = false → c.addr ≠ 0 → c.port ≠ 0 →
      c.stepCalloutArmed = true) := by
  have htimed := (timersKept_of_reachable h).timed id c hc hclosing
  refine ⟨?_, htimed.lingering, ?_⟩
  · intro hinactive hestablished
    exact htimed.handshake (by simp [ConnectionInfo.isHandshaking, hinactive, hestablished])
  · intro hstate hlingering haddr hport
    exact htimed.watched (by simp [ConnectionInfo.isWatched, hstate, hlingering, haddr, hport])

end Runs

/-- A test for `KeepsTimers`. -/
def keepsTimersNow (s : State) (_held : List Task) (input : Input) : Task → Bool
  | .activateConnection ctxId peer => (s.npidToConn (ctxId, peer)).isNone
  | .handleHandshakePacket _ _ _ => (s.connections input.connection).all fun c =>
      c.state != .established
  | .handleControlPacket _ _ _ | .resolveActivation _ => false
  | _ => true

theorem keepsTimers_of_now {held : List Task}
    (h : keepsTimersNow s held input task = true) : KeepsTimers s held input task := by
  cases task with
  | activateConnection ctxId peer =>
    intro ctx id c _ hkey
    simp [keepsTimersNow, hkey] at h
  | handleHandshakePacket fromAddr fromPort datagram =>
    intro _ c hc _ _ _ hstate
    simp [keepsTimersNow, hc, hstate] at h
  | handleControlPacket fromAddr fromPort packet => cases h
  | resolveActivation activation => cases h
  | _ => trivial

/-- A connection that the peer has established. -/
theorem timers_armed_sample :
    ((sampleConfig (sampleActivated ++ sampleHandshake)).state.connections 1).map
      ConnectionInfo.state = some .established ∧
    ∀ c, (sampleConfig (sampleActivated ++ sampleHandshake)).state.connections 1 = some c →
      ¬ Closing (sampleConfig (sampleActivated ++ sampleHandshake)).held 1 →
      c.state = .established → c.deactivateLingering = false → c.addr ≠ 0 → c.port ≠ 0 →
        c.stepCalloutArmed = true := by
  have hreachable : signaling.Reachable KeepsTimers (State.initial 0 0)
      (sampleConfig (sampleActivated ++ sampleHandshake)) :=
    sampleConfig_reachable keepsTimersNow (fun _ _ _ _ => keepsTimers_of_now) (by decide)
  exact ⟨by decide, fun c hc hclosing => (timers_armed hreachable hc hclosing).2.2⟩

/-- A second activation cancels the timeout of the handshake. -/
theorem timers_unarmed :
    ¬ ∀ config, signaling.Reachable Sections.anyRun (State.initial 0 0) config →
      ∀ id c, config.state.connections id = some c → ¬ Closing config.held id →
        c.state ≠ .inactive → c.state ≠ .established → c.timeoutCalloutArmed = true := by
  intro h
  have hreachable : signaling.Reachable Sections.anyRun (State.initial 0 0) (sampleConfig
        (sampleActivated ++ sampleCall 3 (.activateConnection 1 (sampleNpId 97 0)) 1)) :=
    sampleConfig_anyRun (by decide)
  have hidle :
      (sampleConfig
        (sampleActivated ++ sampleCall 3 (.activateConnection 1 (sampleNpId 97 0)) 1)).held = [] :=
    rfl
  cases h _ hreachable 1 _ rfl
    (by simp [Closing, hidle]) ConnState.noConfusion ConnState.noConfusion

end PS4Droid.Np
