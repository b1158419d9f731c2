import PS4Droid.Np.SignalingSteps

/-!
# Established connections

A connection that is established stays so until it is closed, in every run in which no handshake is
started for it again.
-/

namespace PS4Droid.Np

/-- No handshake is started for a connection that was established. -/
def NoLateStart (s : State) (_held : List Task) (_input : Input) : Task → Prop
  | .startHandshakeInitiator id => ∀ c, s.connections id = some c → c.establishedFired = false
  | _ => True

/-- The states of a record with `establishedFired`. -/
structure ConnectionInfo.Settled (c : ConnectionInfo) : Prop where
  fired : c.state = .established → c.establishedFired = true
  kept : c.establishedFired = true → c.state = .established ∨ c.state = .inactive ∧
    c.deadFired = true

variable {c c' : ConnectionInfo} {s : State} {input : Input} {id : ℤ} {task : Task}
  {tasks : List Task}

/-- A record that leaves `Inactive` only with `establishedFired`. -/
theorem ConnectionInfo.Settled.of_eq (h : c.Settled) (hstate : c'.state = c.state)
    (hfired : c'.establishedFired = c.establishedFired) (hdead : c'.deadFired = c.deadFired) :
    c'.Settled where
  fired := by
    rw [hstate, hfired]
    exact h.fired
  kept := by
    rw [hstate, hfired, hdead]
    exact h.kept

theorem ConnectionInfo.Settled.of_handshake (hstate : c'.state ≠ .established)
    (hfired : c'.establishedFired = false) : c'.Settled where
  fired h := absurd h hstate
  kept h := by
    rw [hfired] at h
    cases h

/-- A live record that is not established was never established. -/
theorem ConnectionInfo.Settled.not_fired (h : c.Settled) (hlive : c.state ≠ .inactive)
    (hstate : c.state ≠ .established) : c.establishedFired = false := by
  by_contra hfired
  rcases h.kept (by simpa using hfired) with hkept | ⟨hkept, -⟩
  · exact hstate hkept
  · exact hlive hkept

theorem ConnectionInfo.Settled.offered (h : c.Settled) (hlive : c.state ≠ .inactive)
    (active : Bool) (addr port mappedAddr : ℕ) :
    (c.offered active addr port mappedAddr).Settled := by
  rw [ConnectionInfo.offered, ConnectionInfo.keepTimeout_eq]
  split
  · refine .of_handshake ?_ (h.not_fired hlive ‹_›)
    exact ConnState.noConfusion
  · exact h.of_eq rfl rfl rfl

theorem ConnectionInfo.Settled.accepted (h : c.Settled) (active : Bool)
    (addr port mappedAddr : ℕ) : (c.accepted active addr port mappedAddr).Settled := by
  rw [ConnectionInfo.accepted]
  split
  · rename_i hexpects
    have hstate := ConnectionInfo.expectsAccept_state hexpects
    refine .of_handshake ?_ (h.not_fired hstate.1 hstate.2)
    exact ConnState.noConfusion
  · exact h.of_eq rfl rfl rfl

theorem ConnectionInfo.Settled.checked (h : c.Settled) : c.checked.Settled := by
  rw [ConnectionInfo.checked]
  split
  · rename_i hstate
    have hstate : c.state ≠ .inactive ∧ c.state ≠ .established := by
      rcases hstate with h | h <;> simp [h]
    refine .of_handshake ?_ (h.not_fired hstate.1 hstate.2)
    exact ConnState.noConfusion
  · exact h

theorem ConnectionInfo.Settled.establish (h : c.Settled) (active : Bool) (nowUs : ℤ)
    (peerActivatedHint : Bool) : (c.establish active nowUs peerActivatedHint).Settled := by
  rw [ConnectionInfo.establish, ConnectionInfo.enterEstablished]
  split
  · exact h.of_eq rfl rfl rfl
  · exact ⟨fun _ => rfl, fun _ => .inl rfl⟩

theorem Change.settled (h : Change s input id task c c' tasks) (hc : c.Settled)
    (hstart : task = .startHandshakeInitiator id → c.establishedFired = false) : c'.Settled := by
  have hreceived : (c.received input.nowUs).Settled := hc.of_eq rfl rfl rfl
  cases h with
  | offer _ hlive => exact hreceived.offered hlive _ _ _ _
  | accept => exact hreceived.accepted _ _ _ _
  | check => exact hreceived.checked
  | request =>
    rw [ConnectionInfo.requested, ConnectionInfo.keepTimeout_eq]
    split <;> exact hc.of_eq rfl rfl rfl
  | step =>
    rw [ConnectionInfo.stepFired]
    split <;> exact hc.of_eq rfl rfl rfl
  | close => exact ⟨ConnState.noConfusion, fun _ => .inr ⟨rfl, rfl⟩⟩
  | establish => exact hc.establish _ _ _
  | start =>
    rw [ConnectionInfo.startHandshake, ConnectionInfo.keepTimeout_eq]
    exact .of_handshake ConnState.noConfusion (hstart rfl)
  | _ => exact hc.of_eq rfl rfl rfl

/-- Only an establishment and a close change the flags of the events. -/
theorem Change.flags (h : Change s input id task c c' tasks) :
    (c'.establishedFired = c.establishedFired ∧ c'.establishedEventFired = c.establishedEventFired ∧
      c'.mutualFired = c.mutualFired ∧ c'.deadFired = c.deadFired) ∨
    ((∃ hint, task = .establishConnection id hint) ∧
      (c.establishedFired = true → c'.establishedFired = true) ∧ c'.deadFired = c.deadFired) ∨
    (∃ error, task = .closeConnection id error) ∧ c'.establishedFired = c.establishedFired ∧
      .removeConnection id ∈ tasks := by
  cases h with
  | offer =>
    rw [ConnectionInfo.offered, ConnectionInfo.keepTimeout_eq]
    split <;> exact .inl ⟨rfl, rfl, rfl, rfl⟩
  | accept =>
    rw [ConnectionInfo.accepted]
    split <;> exact .inl ⟨rfl, rfl, rfl, rfl⟩
  | check =>
    rw [ConnectionInfo.checked]
    split <;> exact .inl ⟨rfl, rfl, rfl, rfl⟩
  | request =>
    rw [ConnectionInfo.requested, ConnectionInfo.keepTimeout_eq]
    split <;> exact .inl ⟨rfl, rfl, rfl, rfl⟩
  | step =>
    rw [ConnectionInfo.stepFired]
    split <;> exact .inl ⟨rfl, rfl, rfl, rfl⟩
  | close => exact .inr (.inr ⟨⟨_, rfl⟩, rfl, by simp⟩)
  | establish =>
    refine .inr (.inl ⟨⟨_, rfl⟩, ?_⟩)
    rw [ConnectionInfo.establish, ConnectionInfo.enterEstablished]
    split
    · exact ⟨fun h => h, rfl⟩
    · exact ⟨fun _ => rfl, rfl⟩
  | start =>
    rw [ConnectionInfo.startHandshake, ConnectionInfo.keepTimeout_eq]
    exact .inl ⟨rfl, rfl, rfl, rfl⟩
  | _ => exact .inl ⟨rfl, rfl, rfl, rfl⟩

theorem Change.establishedFired (h : Change s input id task c c' tasks)
    (hfired : c.establishedFired = true) : c'.establishedFired = true := by
  obtain ⟨hsame, -⟩ | ⟨-, hkept, -⟩ | ⟨-, hsame, -⟩ := h.flags
  · exact hsame.trans hfired
  · exact hkept hfired
  · exact hsame.trans hfired

theorem Creation.settled (h : Creation s input id task c tasks) : c.Settled := by
  cases h with
  | activate | activateA => exact .of_handshake ConnState.noConfusion rfl
  | answer =>
    rw [ConnectionInfo.requested, ConnectionInfo.keepTimeout_eq]
    exact .of_handshake ConnState.noConfusion rfl

/-- The records that are dead wait for their removal. -/
def DeadHeld (s : State) (held : List Task) : Prop :=
  ∀ id c, s.connections id = some c → c.deadFired = true → .removeConnection id ∈ held

theorem Change.deadFired (h : Change s input id task c c' tasks) :
    c'.deadFired = c.deadFired ∨ .removeConnection id ∈ tasks := by
  obtain ⟨-, -, -, hsame⟩ | ⟨-, -, hsame⟩ | ⟨-, -, hmem⟩ := h.flags
  · exact .inl hsame
  · exact .inl hsame
  · exact .inr hmem

theorem Creation.deadFired (h : Creation s input id task c tasks) : c.deadFired = false := by
  cases h with
  | activate => rfl
  | activateA => rfl
  | answer =>
    rw [ConnectionInfo.requested, ConnectionInfo.keepTimeout_eq]
    rfl

theorem deadHeld_exec {before after : List Task}
    (hallowed : Allowed s input task) (hwf : s.WellFormed)
    (h : DeadHeld s (before ++ task :: after)) :
    DeadHeld (exec input task s).1 (before ++ ((exec input task s).2 ++ after)) := by
  intro id c hc hdead
  -- The removal is held unless it is the section itself, after which there is no record.
  have hkept (hheld : Task.removeConnection id ∈ before ++ task :: after) :
      Task.removeConnection id ∈ before ++ ((exec input task s).2 ++ after) := by
    refine Sections.mem_of_run hheld ?_
    rintro rfl
    simp [exec] at hc
  obtain hsame | ⟨old, hbefore, hchange⟩ | ⟨_, hcreation⟩ := exec_cases hallowed hwf.zero hc
  · exact hkept (h id c hsame hdead)
  · rcases hchange.deadFired with hsame | hmem
    · exact hkept (h id _ hbefore (hsame.symm.trans hdead))
    · exact Sections.mem_of_follows hmem
  · cases hcreation.deadFired.symm.trans hdead

section Runs

variable {ok : State → List Task → Input → Task → Prop} {seed : Fin 0x8000} {lastContext : Fin 9}
  {config : Sections.Config State Task}

theorem deadHeld_of_reachable (h : signaling.Reachable ok (State.initial seed lastContext) config) :
    DeadHeld config.state config.held := by
  have hboth : config.state.WellFormed ∧ DeadHeld config.state config.held := by
    refine h.held_invariant (P := fun s held => s.WellFormed ∧ DeadHeld s held) ?_ ?_ ?_
    · exact ⟨State.wellFormed_initial seed lastContext, fun id c hc => by cases hc⟩
    · intro s before after task number _ hinv
      refine ⟨hinv.1, fun id c hc hdead => ?_⟩
      exact Sections.mem_of_start (hinv.2 id c hc hdead)
    · intro s before after task input hallowed _ hinv
      exact ⟨hinv.1.exec hallowed, deadHeld_exec hallowed hinv.1 hinv.2⟩
  exact hboth.2

theorem settled_of_reachable
    (h : signaling.Reachable NoLateStart (State.initial seed lastContext) config) :
    ∀ id c, config.state.connections id = some c → c.Settled := by
  refine records_of_reachable (fun hok hbefore hc hchange => hchange.settled hc ?_)
    (fun _ hcreation => hcreation.settled) h
  rintro rfl
  exact hok _ hbefore

/-- An established connection is left by closing it only, and a closed one is removed. -/
theorem established_until_closed
    (h : signaling.Reachable NoLateStart (State.initial seed lastContext) config) :
    (∀ id c, config.state.connections id = some c → c.establishedFired = true →
      c.state = .established ∨ c.state = .inactive ∧ .removeConnection id ∈ config.held) ∧
    ∀ config', signaling.Step NoLateStart config config' →
      ∀ id c, config.state.connections id = some c → c.state = .established →
        config'.state.connections id = none ∨
        ∃ c', config'.state.connections id = some c' ∧ c'.life = c.life ∧
          (c'.state = .established ∨ c'.state = .inactive) := by
  have hsettled := settled_of_reachable h
  constructor
  · intro id c hc hfired
    rcases (hsettled id c hc).kept hfired with hkept | ⟨hinactive, hdead⟩
    · exact .inl hkept
    · exact .inr ⟨hinactive, deadHeld_of_reachable h id c hc hdead⟩
  · intro config' hstep id c hc hstate
    have hsettled' := settled_of_reachable (h.step hstep)
    have hfired := (hsettled id c hc).fired hstate
    cases hstep with
    | start hentry => exact .inr ⟨c, hc, rfl, .inl hstate⟩
    | run hallowed hok =>
      cases exec_outcome hallowed (wellFormed_of_reachable h).zero id with
      | same hsame => exact .inr ⟨c, hsame.trans hc, rfl, .inl hstate⟩
      | removed _ hnone => exact .inl hnone
      | changed hbefore hafter hchange =>
        obtain rfl := Option.some.inj (hbefore.symm.trans hc)
        refine .inr ⟨_, hafter, hchange.sameRecord.life, ?_⟩
        have hfired' := hchange.establishedFired hfired
        exact ((hsettled' id _ hafter).kept hfired').imp_right And.left
      | created hnew _ _ =>
        have hclosed := hnew.replaced c hc
        rw [hstate] at hclosed
        cases hclosed

end Runs

/-- The pending activation is found not to be inactive, and meanwhile the peer establishes it. -/
def sampleOvertaken : List (Sections.Move Task Input) :=
  sampleActivated ++ sampleCall 2 .processPendingActivations 3 ++ sampleHandshake

theorem established_until_closed_sample :
    ((sampleConfig sampleOvertaken).state.connections 1).map ConnectionInfo.state =
      some .established ∧
    ∀ id c, (sampleConfig sampleOvertaken).state.connections id = some c →
      c.establishedFired = true → c.state = .established ∨
        c.state = .inactive ∧ .removeConnection id ∈ (sampleConfig sampleOvertaken).held := by
  refine ⟨by decide, (established_until_closed (sampleConfig_reachable ?_ ?_ ?_)).1⟩
  · exact fun s _ _ task => match task with
      | .startHandshakeInitiator id => (s.connections id).all fun c => !c.establishedFired
      | _ => true
  · intro s held input task h
    cases task with
    | startHandshakeInitiator id =>
      intro c hc
      simpa [hc] using h
    | _ => trivial
  · decide

/-- The pending activation then starts its handshake for the established connection. -/
theorem established_pulled_back :
    ¬ ∀ config, signaling.Reachable Sections.anyRun (State.initial 0 0) config →
      ∀ id c, config.state.connections id = some c → c.establishedFired = true →
        c.state = .established ∨ c.state = .inactive := by
  intro h
  have hreachable : signaling.Reachable Sections.anyRun (State.initial 0 0)
      (sampleConfig (sampleOvertaken ++ [.run 2 sampleInput])) := sampleConfig_anyRun (by decide)
  rcases h _ hreachable 1 _ rfl rfl with hstate | hstate <;> cases hstate

end PS4Droid.Np
