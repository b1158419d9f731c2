import Mathlib.Data.List.Count
import PS4Droid.Np.Established

/-!
# The order of the events of a connection

Every event of `ESTABLISHED`, `MUTUAL_ACTIVATED` and `DEAD` is staged once for a connection, and in
this order, in every run in which an event is staged for the connection for which it was decided,
before its `DEAD`, and `MUTUAL_ACTIVATED` not before an `ESTABLISHED` that another thread still has
to stage.
-/

namespace PS4Droid.Np

/-- The section stages the event for the connection. -/
def Task.isDispatchOf (life : ℕ) (event : Event) : Task → Bool
  | .dispatchConnectionEvent _ life' event' _ => life' == life && event' == event
  | _ => false

def QueuedDispatch.isOf (life : ℕ) (event : Event) (dispatch : QueuedDispatch) : Bool :=
  dispatch.life == life && dispatch.event == event

/-- How often the event of the connection is staged, or still has to be. -/
def announced (s : State) (held : List Task) (life : ℕ) (event : Event) : ℕ :=
  held.countP (Task.isDispatchOf life event) + s.dispatchQueue.countP
    (QueuedDispatch.isOf life event)

/-- The condition under which an event of the connection may be staged. -/
def MayStage (s : State) (held : List Task) (life : ℕ) (event : Event) (c : ConnectionInfo) :
    Prop :=
  c.life = life ∧ (event ≠ .dead → s.dispatchQueue.countP (QueuedDispatch.isOf life .dead) = 0) ∧
    (event = .mutualActivated → held.countP (Task.isDispatchOf life .established) = 0)

/-- The sections that stage an event do so for the connection it was decided for, before its `DEAD`,
and after its `ESTABLISHED`. -/
def Orderly (s : State) (held : List Task) (_input : Input) : Task → Prop
  | .dispatchConnectionEvent id life event _ => ∀ c, s.connections id = some c →
      MayStage s held life event c
  | .dispatchPeerActivatedEvent id life => ∀ c, s.connections id = some c →
      MayStage s held life .peerActivated c
  | _ => True

/-- The order of two events of a connection. -/
structure QueuedDispatch.Precedes (e e' : QueuedDispatch) : Prop where
  dead : e.life = e'.life → e.event ≠ .dead
  established : e.life = e'.life → e.event = .established → e'.event ≠ .established
  mutualActivated : e.life = e'.life → e.event = .mutualActivated → e'.event ≠ .established ∧
    e'.event ≠ .mutualActivated

/-- The flag of an event that a connection has once. -/
def ConnectionInfo.fired (c : ConnectionInfo) : Event → Bool
  | .established => c.establishedEventFired
  | .mutualActivated => c.mutualFired
  | .dead => c.deadFired
  | .peerActivated | .peerDeactivated => true

/-- The events that are staged and those that still have to be. -/
structure Timeline (s : State) (held : List Task) : Prop where
  wellFormed : s.WellFormed
  lives : ∀ id c, s.connections id = some c → c.life < s.lives
  unique : ∀ id id' c c', s.connections id = some c → s.connections id' = some c' →
    c.life = c'.life → id = id'
  fresh : ∀ life event, s.lives ≤ life → event.isSingle = true → announced s held life event = 0
  once : ∀ life event, event.isSingle = true → announced s held life event ≤ 1
  unfired : ∀ id c event, s.connections id = some c → c.fired event = false →
    announced s held c.life event = 0
  marked : ∀ id c, s.connections id = some c → c.mutualFired = true → c.establishedEventFired = true
  settled : ∀ life, s.dispatchQueue.countP (QueuedDispatch.isOf life .mutualActivated) ≠ 0 →
    held.countP (Task.isDispatchOf life .established) = 0
  ordered : s.dispatchQueue.Pairwise QueuedDispatch.Precedes

/-! ## Sections that stage nothing -/

variable {id : ℤ} {c : ConnectionInfo} {tasks : List Task} {event : Event} {α : Type}

theorem Change.fired {s : State} {input : Input} {task : Task} {c' : ConnectionInfo}
    (h : Change s input id task c c' tasks) (event : Event)
    (hestablish : ∀ hint, task ≠ .establishConnection id hint)
    (hclose : ∀ error, task ≠ .closeConnection id error) : c'.fired event = c.fired event := by
  have hflags : c'.establishedEventFired = c.establishedEventFired ∧
    c'.mutualFired = c.mutualFired ∧ c'.deadFired = c.deadFired := by
    obtain hflags | ⟨⟨hint, htask⟩, -⟩ | ⟨⟨error, htask⟩, -⟩ := h.flags
    · exact hflags.2
    · exact absurd htask (hestablish hint)
    · exact absurd htask (hclose error)
  cases event with
  | established => exact hflags.1
  | mutualActivated => exact hflags.2.1
  | dead => exact hflags.2.2
  | peerActivated => rfl
  | peerDeactivated => rfl

theorem Creation.unmarked {s : State} {input : Input} {task : Task}
    (h : Creation s input id task c tasks) : c.life = s.lives ∧ c.mutualFired = false := by
  cases h with
  | activate => exact ⟨rfl, rfl⟩
  | activateA => exact ⟨rfl, rfl⟩
  | answer =>
    rw [ConnectionInfo.requested, ConnectionInfo.keepTimeout_eq]
    split <;> exact ⟨rfl, rfl⟩

theorem countP_isDispatchOf_eq_zero (h : ∀ t ∈ tasks, t.announces = false) (life : ℕ)
    (hevent : event.isSingle = true) : tasks.countP (Task.isDispatchOf life event) = 0 := by
  rw [List.countP_eq_zero]
  intro t ht hdispatch
  have hquiet := h t ht
  cases t with
  | dispatchConnectionEvent id life' event' error =>
    simp only [Task.isDispatchOf, Bool.and_eq_true, beq_iff_eq] at hdispatch
    rw [Task.announces, hdispatch.2, hevent] at hquiet
    cases hquiet
  | _ => cases hdispatch

theorem exec_announces {s : State} {input : Input} {task : Task}
    (hestablish : ∀ id hint, task ≠ .establishConnection id hint)
    (hclose : ∀ id error, task ≠ .closeConnection id error) :
    ∀ t ∈ (exec input task s).2, t.announces = false := by
  intro t ht
  by_contra hannounces
  rcases (exec_emits t ht).2 (by simpa using hannounces) with ⟨id, hint, h⟩ | ⟨id, error, h⟩
  · exact hestablish id hint h
  · exact hclose id error h

/-! ## Lives -/

section Lives

variable {s : State} {input : Input} {task : Task}

theorem exec_origin (hallowed : Allowed s input task) (hwf : s.WellFormed) {id : ℤ}
    {c' : ConnectionInfo} (hc' : (exec input task s).1.connections id = some c') :
    (∃ c, s.connections id = some c ∧ c'.life = c.life) ∨
      c'.life = s.lives ∧ NewRecord s (exec input task s).1 id := by
  obtain hsame | ⟨c, hbefore, hchange⟩ | ⟨hnew, hcreation⟩ := exec_cases hallowed hwf.zero hc'
  · exact .inl ⟨c', hsame, rfl⟩
  · exact .inl ⟨c, hbefore, hchange.sameRecord.life⟩
  · exact .inr ⟨hcreation.unmarked.1, hnew⟩

theorem lives_exec (hallowed : Allowed s input task) (hwf : s.WellFormed)
    (hlives : ∀ id c, s.connections id = some c → c.life < s.lives) (id : ℤ) (c' : ConnectionInfo)
    (hc' : (exec input task s).1.connections id = some c') :
    c'.life < (exec input task s).1.lives := by
  rcases exec_origin hallowed hwf hc' with ⟨c, hc, hlife⟩ | ⟨hlife, hnew⟩
  · rw [hlife]
    exact Nat.lt_of_lt_of_le (hlives id c hc) exec_lives
  · rw [hlife, hnew.lives]
    exact Nat.lt_succ_self _

theorem unique_exec (hallowed : Allowed s input task) (hwf : s.WellFormed)
    (hlives : ∀ id c, s.connections id = some c → c.life < s.lives)
    (hunique : ∀ id id' c c', s.connections id = some c → s.connections id' = some c' →
      c.life = c'.life → id = id')
    (id id' : ℤ) (c c' : ConnectionInfo) (hc : (exec input task s).1.connections id = some c)
    (hc' : (exec input task s).1.connections id' = some c') (hlife : c.life = c'.life) :
    id = id' := by
  rcases exec_origin hallowed hwf hc with ⟨c₁, hc₁, hlife₁⟩ | ⟨hlife₁, hnew₁⟩
  · rcases exec_origin hallowed hwf hc' with ⟨c₂, hc₂, hlife₂⟩ | ⟨hlife₂, -⟩
    · exact hunique id id' c₁ c₂ hc₁ hc₂ (by rw [← hlife₁, ← hlife₂, hlife])
    · have hlt := hlives id c₁ hc₁
      omega
  · by_contra hne
    -- The other record is there before, with a number that is not yet given.
    rcases hnew₁.others id' (Ne.symm hne) with hsame | hnone
    · have hlt := hlives id' c' (hsame.symm.trans hc')
      omega
    · cases hnone.symm.trans hc'

end Lives

/-! ## Sections that announce an event -/

/-- One record is changed, and the events are announced whose flag it sets. -/
structure Announces (s s' : State) (tasks : List Task) (id : ℤ) (c c' : ConnectionInfo) : Prop where
  before : s.connections id = some c
  after : s'.connections = Function.update s.connections id (some c')
  sameRecord : c.SameRecord c'
  kept : ∀ event, c.fired event = true → c'.fired event = true
  marked : c'.mutualFired = true → c'.establishedEventFired = true
  count : ∀ life event, event.isSingle = true → tasks.countP (Task.isDispatchOf life event) =
    if c.life = life ∧ c.fired event = false ∧ c'.fired event = true then 1 else 0

theorem announces_close {s : State} {error : CloseError}
    (hc : s.connections id = some c) (hdead : c.deadFired = false)
    (hmarked : c.mutualFired = true → c.establishedEventFired = true) :
    Announces s (s.setConnection id c.close)
      [.dispatchConnectionEvent id c.life .dead (some error),
        .removeConnection id] id c c.close where
  before := hc
  after := rfl
  sameRecord := ⟨rfl, rfl, rfl, rfl, rfl⟩
  kept event h := by cases event <;> first | exact h | rfl
  marked := hmarked
  count life event hevent := by
    cases event with
    | dead =>
      by_cases hlife : c.life = life <;>
        simp [Task.isDispatchOf, hlife, ConnectionInfo.fired, hdead, ConnectionInfo.close,
          ConnectionInfo.cancelStep, ConnectionInfo.cancelTimeout]
    | established =>
      have hsame : c.close.fired .established = c.fired .established := rfl
      rw [hsame, if_neg (by simp)]
      simp [Task.isDispatchOf]
    | mutualActivated =>
      have hsame : c.close.fired .mutualActivated = c.fired .mutualActivated := rfl
      rw [hsame, if_neg (by simp)]
      simp [Task.isDispatchOf]
    | peerActivated => cases hevent
    | peerDeactivated => cases hevent

theorem enterEstablished_flags (c : ConnectionInfo) (active : Bool) (nowUs : ℤ) :
    (c.enterEstablished active nowUs).establishedEventFired = c.establishedEventFired ∧
    (c.enterEstablished active nowUs).mutualFired = c.mutualFired ∧
    (c.enterEstablished active nowUs).deadFired = c.deadFired := by
  rw [ConnectionInfo.enterEstablished]
  split <;> exact ⟨rfl, rfl, rfl⟩

theorem countP_ite_singleton (p : α → Bool) (b : Bool) (x : α) :
    (if b = true then [x] else []).countP p = if b = true ∧ p x = true then 1 else 0 := by
  cases b with
  | false => simp
  | true => cases h : p x <;> simp [h]

theorem announces_establish {s : State} {input : Input} {peerActivatedHint : Bool}
    (hc : s.connections id = some c)
    (hmarked : c.mutualFired = true → c.establishedEventFired = true) :
    Announces s (exec input (.establishConnection id peerActivatedHint) s).1
      (exec input (.establishConnection id peerActivatedHint) s).2 id c
      (c.establish s.calloutCtxActive input.nowUs peerActivatedHint) := by
  have hexec : exec input (.establishConnection id peerActivatedHint) s =
      establishConnection s input id peerActivatedHint := rfl
  rw [hexec, establishConnection, onConnection, hc]
  dsimp only
  obtain ⟨hestablished, hmutual, hdead⟩ :=
    enterEstablished_flags (c.hint peerActivatedHint) s.calloutCtxActive input.nowUs
  have hsame := c.establish_sameRecord s.calloutCtxActive input.nowUs peerActivatedHint
  rw [ConnectionInfo.establish] at hsame ⊢
  generalize (c.hint peerActivatedHint).enterEstablished s.calloutCtxActive input.nowUs = e at *
  have hfired : e.markFired.fired .established = (c.fired .established || e.firesEstablished) ∧
      e.markFired.fired .mutualActivated = (c.fired .mutualActivated || e.firesMutual) ∧
      e.markFired.fired .dead = c.fired .dead := by
    simp only [ConnectionInfo.fired, ConnectionInfo.markFired, hestablished, hmutual, hdead]
    exact ⟨rfl, rfl, rfl⟩
  have hfirst : e.firesEstablished = true → c.fired .established = false := by
    intro h
    simp only [ConnectionInfo.firesEstablished, Bool.and_eq_true, Bool.not_eq_true',
      hestablished] at h
    exact h.2
  have hsecond : e.firesMutual = true → c.fired .mutualActivated = false := by
    intro h
    simp only [ConnectionInfo.firesMutual, Bool.and_eq_true, Bool.not_eq_true', hmutual] at h
    exact h.2
  refine ⟨hc, rfl, hsame, ?_, ?_, ?_⟩
  · intro event h
    cases event with
    | established => rw [hfired.1, h, Bool.true_or]
    | mutualActivated => rw [hfired.2.1, h, Bool.true_or]
    | dead => rw [hfired.2.2, h]
    | peerActivated => rfl
    | peerDeactivated => rfl
  · intro h
    have hor : c.fired .mutualActivated = true ∨ e.firesMutual = true :=
      Bool.or_eq_true_iff.mp (hfired.2.1.symm.trans h)
    have hgoal : e.markFired.fired .established = true := by
      rw [hfired.1]
      rcases hor with hold | hnew
      · rw [show c.fired .established = true from hmarked hold, Bool.true_or]
      · simp only [ConnectionInfo.firesMutual, Bool.and_eq_true] at hnew
        cases hfires : c.fired .established with
        | true => rfl
        | false =>
          have hunfired : e.establishedEventFired = false := hestablished.trans hfires
          simp [ConnectionInfo.firesEstablished, hnew.1.1.1, hnew.1.1.2, hunfired]
    exact hgoal
  · intro life event hevent
    simp only [List.countP_append, countP_ite_singleton, Task.isDispatchOf, Bool.false_eq_true,
      and_false, if_false, Nat.zero_add, Bool.and_eq_true, beq_iff_eq]
    cases event with
    | established =>
      rw [hfired.1]
      cases hfires : e.firesEstablished with
      | false => simp
      | true => simp [hfirst hfires]
    | mutualActivated =>
      rw [hfired.2.1]
      cases hfires : e.firesMutual with
      | false => simp
      | true => simp [hsecond hfires]
    | dead =>
      rw [hfired.2.2]
      simp
    | peerActivated => cases hevent
    | peerDeactivated => cases hevent

theorem ConnectionInfo.isSingle_of_unfired (h : c.fired event = false) :
    event.isSingle = true := by
  cases event with
  | peerActivated => cases h
  | peerDeactivated => cases h
  | _ => rfl

/-! ## Steps -/

section Steps

variable {s : State} {before after held held' : List Task} {task : Task} {input : Input}

theorem Task.not_isDispatchOf (h : ¬ task.IsDispatch) (life : ℕ) (event : Event) :
    task.isDispatchOf life event = false := by
  cases task with
  | dispatchConnectionEvent id life' event' error => exact absurd trivial h
  | _ => rfl

theorem countP_held (h : ¬ task.IsDispatch) (tasks : List Task) (life : ℕ) (event : Event) :
    (before ++ (tasks ++ after)).countP (Task.isDispatchOf life event) =
      (before ++ task :: after).countP (Task.isDispatchOf life event) +
        tasks.countP (Task.isDispatchOf life event) := by
  simp only [List.countP_append, List.countP_cons, Task.not_isDispatchOf h, Bool.false_eq_true,
    if_false]
  omega

theorem announced_exec (h : ¬ task.IsDispatch) (life : ℕ) (event : Event) :
    announced (exec input task s).1 (before ++ ((exec input task s).2 ++ after)) life event =
      announced s (before ++ task :: after) life event +
        (exec input task s).2.countP (Task.isDispatchOf life event) := by
  rw [announced, announced, exec_dispatchQueue h, countP_held h]
  omega

theorem Timeline.exec_quiet (h : Timeline s (before ++ task :: after))
    (hallowed : Allowed s input task)
    (hdispatch : ¬ task.IsDispatch) (hestablish : ∀ id hint, task ≠ .establishConnection id hint)
    (hclose : ∀ id error, task ≠ .closeConnection id error) :
    Timeline (exec input task s).1 (before ++ ((exec input task s).2 ++ after)) := by
  have hcount (life : ℕ) (event : Event) (hevent : event.isSingle = true) :
      announced (exec input task s).1 (before ++ ((exec input task s).2 ++ after)) life event =
        announced s (before ++ task :: after) life event := by
    rw [announced_exec hdispatch,
      countP_isDispatchOf_eq_zero (exec_announces hestablish hclose) life hevent, Nat.add_zero]
  refine ⟨h.wellFormed.exec hallowed, lives_exec hallowed h.wellFormed h.lives,
    unique_exec hallowed h.wellFormed h.lives h.unique, ?_, ?_, ?_, ?_, ?_, ?_⟩
  · intro life event hlife hevent
    rw [hcount life event hevent]
    exact h.fresh life event (Nat.le_trans exec_lives hlife) hevent
  · intro life event hevent
    rw [hcount life event hevent]
    exact h.once life event hevent
  · intro id c event hc hunfired
    have hevent := ConnectionInfo.isSingle_of_unfired hunfired
    rw [hcount c.life event hevent]
    obtain hsame | ⟨old, hbefore, hchange⟩ | ⟨_, hcreation⟩ :=
      exec_cases hallowed h.wellFormed.zero hc
    · exact h.unfired id c event hsame hunfired
    · rw [hchange.fired event (hestablish id) (hclose id)] at hunfired
      rw [hchange.sameRecord.life]
      exact h.unfired id _ event hbefore hunfired
    · exact h.fresh _ event (Nat.le_of_eq hcreation.unmarked.1.symm) hevent
  · intro id c hc hmutual
    obtain hsame | ⟨old, hbefore, hchange⟩ | ⟨_, hcreation⟩ :=
      exec_cases hallowed h.wellFormed.zero hc
    · exact h.marked id c hsame hmutual
    · have hsame (event : Event) := hchange.fired event (hestablish id) (hclose id)
      exact (hsame .established).trans
        (h.marked id _ hbefore ((hsame .mutualActivated).symm.trans hmutual))
    · cases hcreation.unmarked.2.symm.trans hmutual
  · intro life hmutual
    rw [exec_dispatchQueue hdispatch] at hmutual
    rw [countP_held hdispatch,
      countP_isDispatchOf_eq_zero (exec_announces hestablish hclose) life rfl, Nat.add_zero]
    exact h.settled life hmutual
  · rw [exec_dispatchQueue hdispatch]
    exact h.ordered

variable {id : ℤ} {c : ConnectionInfo} {e : QueuedDispatch} {life : ℕ} {event : Event}

theorem Timeline.exec_announces (h : Timeline s (before ++ task :: after))
    (hallowed : Allowed s input task) (hdispatch : ¬ task.IsDispatch) {c' : ConnectionInfo}
    (hannounces : Announces s (exec input task s).1 (exec input task s).2 id c c') :
    Timeline (exec input task s).1 (before ++ ((exec input task s).2 ++ after)) := by
  refine ⟨h.wellFormed.exec hallowed, lives_exec hallowed h.wellFormed h.lives,
    unique_exec hallowed h.wellFormed h.lives h.unique, ?_, ?_, ?_, ?_, ?_, ?_⟩
  · intro life event hlife hevent
    have hlt := h.lives id c hannounces.before
    have hle : s.lives ≤ (exec input task s).1.lives := exec_lives
    rw [announced_exec hdispatch, hannounces.count life event hevent, if_neg (by omega),
      Nat.add_zero]
    exact h.fresh life event (Nat.le_trans hle hlife) hevent
  · intro life event hevent
    rw [announced_exec hdispatch, hannounces.count life event hevent]
    split
    · rename_i hnew
      have hnone := h.unfired id c event hannounces.before hnew.2.1
      rw [hnew.1] at hnone
      omega
    · exact h.once life event hevent
  · intro id' c₁ event hc₁ hunfired
    have hevent := ConnectionInfo.isSingle_of_unfired hunfired
    rw [hannounces.after] at hc₁
    rw [announced_exec hdispatch, hannounces.count _ event hevent]
    by_cases hid : id' = id
    · rw [hid, Function.update_self] at hc₁
      obtain rfl := Option.some.inj hc₁
      rw [if_neg (by simp [hunfired]), hannounces.sameRecord.life, Nat.add_zero]
      refine h.unfired id c event hannounces.before ?_
      cases hold : c.fired event with
      | false => rfl
      | true => exact (hannounces.kept event hold).symm.trans hunfired
    · rw [Function.update_of_ne hid] at hc₁
      rw [if_neg, h.unfired id' c₁ event hc₁ hunfired]
      rintro ⟨hlife, -⟩
      exact hid (h.unique id' id c₁ c hc₁ hannounces.before hlife.symm)
  · intro id' c₁ hc₁ hmutual
    rw [hannounces.after] at hc₁
    by_cases hid : id' = id
    · rw [hid, Function.update_self] at hc₁
      obtain rfl := Option.some.inj hc₁
      exact hannounces.marked hmutual
    · rw [Function.update_of_ne hid] at hc₁
      exact h.marked id' c₁ hc₁ hmutual
  · intro life hmutual
    rw [exec_dispatchQueue hdispatch] at hmutual
    rw [countP_held hdispatch, h.settled life hmutual, hannounces.count life .established rfl]
    -- A connection with a staged `MUTUAL_ACTIVATED` has had its `ESTABLISHED`.
    rw [if_neg]
    rintro ⟨rfl, hunfired, -⟩
    have hmarked : c.mutualFired = true := by
      by_contra hnot
      have hnone := h.unfired id c .mutualActivated hannounces.before (Bool.eq_false_iff.mpr hnot)
      rw [announced] at hnone
      omega
    cases (h.marked id c hannounces.before hmarked).symm.trans hunfired
  · rw [exec_dispatchQueue hdispatch]
    exact h.ordered

theorem Timeline.staged (h : Timeline s held) {events : List QueuedDispatch}
    (hheld : ∀ life event, event.isSingle = true → held'.countP (Task.isDispatchOf life event) +
      events.countP (QueuedDispatch.isOf life event) ≤ held.countP (Task.isDispatchOf life event))
    (hsettled : ∀ life, events.countP (QueuedDispatch.isOf life .mutualActivated) ≠ 0 →
      held'.countP (Task.isDispatchOf life .established) = 0)
    (hordered : (s.dispatchQueue ++ events).Pairwise QueuedDispatch.Precedes) :
    Timeline { s with dispatchQueue := s.dispatchQueue ++ events } held' := by
  have hle (life : ℕ) (event : Event) (hevent : event.isSingle = true) :
      announced { s with dispatchQueue := s.dispatchQueue ++ events } held' life event ≤
        announced s held life event := by
    have hcount := hheld life event hevent
    simp only [announced, List.countP_append]
    omega
  refine ⟨⟨h.wellFormed.calloutCtxActive, h.wellFormed.connectionIdSeed, h.wellFormed.connId,
    h.wellFormed.bounds⟩, h.lives, h.unique, ?_, ?_, ?_, h.marked, ?_, hordered⟩
  · intro life event hlife hevent
    have hfresh := h.fresh life event hlife hevent
    have hcount := hle life event hevent
    omega
  · intro life event hevent
    exact Nat.le_trans (hle life event hevent) (h.once life event hevent)
  · intro id c event hc hunfired
    have hnone := h.unfired id c event hc hunfired
    have hcount := hle c.life event (ConnectionInfo.isSingle_of_unfired hunfired)
    omega
  · intro life hmutual
    rw [List.countP_append] at hmutual
    by_cases hnew : events.countP (QueuedDispatch.isOf life .mutualActivated) = 0
    · have hsettled := h.settled life (by omega)
      have hcount := hheld life .established rfl
      omega
    · exact hsettled life hnew

theorem Timeline.of_fewer (h : Timeline s held)
    (hfewer : ∀ life event, held'.countP (Task.isDispatchOf life event) ≤
      held.countP (Task.isDispatchOf life event)) : Timeline s held' := by
  have hstaged : Timeline { s with dispatchQueue := s.dispatchQueue ++ [] } held' :=
    h.staged (fun life event _ => by simpa using hfewer life event) (fun life hnone =>
      absurd rfl hnone)
      (by simpa using h.ordered)
  simpa using hstaged

theorem dispatchConnectionEvent_cases (id : ℤ) (event : Event) (error : Option CloseError) :
    dispatchConnectionEvent s id event error = s ∨
    ∃ c, s.connections id = some c ∧ dispatchConnectionEvent s id event error =
      { s with dispatchQueue := s.dispatchQueue ++ [⟨c.ctxId, id, event, error, c.life⟩] } := by
  rw [dispatchConnectionEvent]
  split
  · exact .inl rfl
  rename_i c hc
  split
  · exact .inl rfl
  split
  · rw [State.stage]
    split
    · exact .inr ⟨c, hc, rfl⟩
    · exact .inl rfl
  · exact .inl rfl

theorem isOf_of_mem {queue : List QueuedDispatch}
    (he : e ∈ queue) (hlife : e.life = life) (hevent : e.event = event) :
    queue.countP (QueuedDispatch.isOf life event) ≠ 0 := by
  rw [Nat.ne_zero_iff_zero_lt, List.countP_pos_iff]
  exact ⟨e, he, by simp [QueuedDispatch.isOf, hlife, hevent]⟩

/-- An event that is staged comes after those of its connection. -/
theorem Timeline.precedes (h : Timeline s held)
    (hheld : event.isSingle = true → held.countP (Task.isDispatchOf life event) ≠ 0)
    (hstage : MayStage s held life event c) {e' : QueuedDispatch} (he : e ∈ s.dispatchQueue)
    (hlife : e'.life = life) (hevent : e'.event = event) : e.Precedes e' := by
  have honce (hsingle : event.isSingle = true) (hsame : e.life = e'.life) : e.event ≠ event := by
    intro heq
    have hcount := h.once life event hsingle
    have hqueue := isOf_of_mem he (hsame.trans hlife) heq
    have hmany := hheld hsingle
    rw [announced] at hcount
    omega
  refine ⟨?_, ?_, ?_⟩
  · intro hsame hdead
    by_cases hnew : event = .dead
    · exact honce (by rw [hnew]; rfl) hsame (hdead.trans hnew.symm)
    · exact isOf_of_mem he (hsame.trans hlife) hdead (hstage.2.1 hnew)
  · intro hsame hfirst hsecond
    rw [hevent] at hsecond
    exact honce (by rw [hsecond]; rfl) hsame (hfirst.trans hsecond.symm)
  · intro hsame hmutual
    constructor
    · intro hsecond
      rw [hevent] at hsecond
      subst hsecond
      exact hheld rfl (h.settled life (isOf_of_mem he (hsame.trans hlife) hmutual))
    · intro hsecond
      rw [hevent] at hsecond
      exact honce (by rw [hsecond]; rfl) hsame (hmutual.trans hsecond.symm)

theorem Timeline.exec_dispatch {error : Option CloseError}
    (h : Timeline s (before ++ .dispatchConnectionEvent id life event error :: after))
    (hok : ∀ c, s.connections id = some c →
      MayStage s (before ++ .dispatchConnectionEvent id life event error :: after) life event c) :
    Timeline (dispatchConnectionEvent s id event error) (before ++ after) := by
  have hfewer (life' : ℕ)
    (event' : Event) : (before ++ after).countP (Task.isDispatchOf life' event') ≤
      (before ++ .dispatchConnectionEvent id life event error :: after).countP
        (Task.isDispatchOf life' event') := by
    simp only [List.countP_append, List.countP_cons]
    omega
  rcases dispatchConnectionEvent_cases (s := s) id event error with hsame | ⟨c, hc, hstaged⟩
  · rw [hsame]
    exact h.of_fewer hfewer
  · have hstage := hok c hc
    obtain rfl := hstage.1
    rw [hstaged]
    refine h.staged ?_ ?_ ?_
    · intro life' event' _
      have hboth : Task.isDispatchOf life' event' (.dispatchConnectionEvent id c.life event error) =
          QueuedDispatch.isOf life' event' ⟨c.ctxId, id, event, error, c.life⟩ := rfl
      simp only [List.countP_append, List.countP_cons, List.countP_nil, hboth]
      omega
    · intro life' hmutual
      have hthis : c.life = life' ∧ event = .mutualActivated := by
        simpa [QueuedDispatch.isOf] using hmutual
      have hnone := hstage.2.2 hthis.2
      rw [hthis.1] at hnone
      have hle := hfewer life' .established
      rw [hthis.1] at hle
      omega
    · rw [List.pairwise_append]
      refine ⟨h.ordered, List.pairwise_singleton _ _, ?_⟩
      intro e he e' he'
      rw [List.mem_singleton] at he'
      refine h.precedes ?_ hstage he (by rw [he']) (by rw [he'])
      intro _
      simp [Task.isDispatchOf]

theorem dispatchPeerActivatedEvent_cases (id : ℤ) : dispatchPeerActivatedEvent s input id = s ∨
    ∃ c events, s.connections id = some c ∧
      (∀ e ∈ events, QueuedDispatch.life e = c.life ∧ e.event = .peerActivated) ∧
      dispatchPeerActivatedEvent s input id =
        { s with dispatchQueue := s.dispatchQueue ++ events } := by
  rw [dispatchPeerActivatedEvent]
  split
  · exact .inl rfl
  rename_i c hc
  right
  suffices hevents : ∃ events,
    (∀ e ∈ events, QueuedDispatch.life e = c.life ∧ e.event = .peerActivated) ∧
      _ = { s with dispatchQueue := s.dispatchQueue ++ events } by
    obtain ⟨events, hevents, heq⟩ := hevents
    exact ⟨c, events, hc, hevents, heq⟩
  refine List.foldlRecOn
    (motive := fun s' : State => ∃ events,
      (∀ e ∈ events, QueuedDispatch.life e = c.life ∧ e.event = .peerActivated) ∧
      s' = { s with dispatchQueue := s.dispatchQueue ++ events }) _ _ ⟨[], ?_, ?_⟩ ?_
  · intro e he
    cases he
  · rw [List.append_nil]
  · rintro s' ⟨events, hevents, rfl⟩ ctxId _
    split
    · exact ⟨events, hevents, rfl⟩
    split
    · rw [State.stage]
      split
      · refine ⟨events ++ [⟨ctxId, id, .peerActivated, none, c.life⟩], ?_, ?_⟩
        · intro e he
          rcases List.mem_append.mp he with he | he
          · exact hevents e he
          · rw [List.mem_singleton.mp he]
            exact ⟨rfl, rfl⟩
        · rw [List.append_assoc]
      · exact ⟨events, hevents, rfl⟩
    · exact ⟨events, hevents, rfl⟩

theorem Timeline.exec_dispatchPeer
    (h : Timeline s (before ++ .dispatchPeerActivatedEvent id life :: after))
    (hok : ∀ c, s.connections id = some c →
      MayStage s (before ++ .dispatchPeerActivatedEvent id life :: after) life .peerActivated c) :
    Timeline (dispatchPeerActivatedEvent s input id) (before ++ after) := by
  have hsame (life' : ℕ)
    (event' : Event) : (before ++ after).countP (Task.isDispatchOf life' event') =
      (before ++ .dispatchPeerActivatedEvent id life :: after).countP
        (Task.isDispatchOf life' event') := by
    simp [Task.isDispatchOf]
  rcases @dispatchPeerActivatedEvent_cases s input id with heq | ⟨c, events, hc, hevents, heq⟩
  · rw [heq]
    exact h.of_fewer fun life' event' => Nat.le_of_eq (hsame life' event')
  · have hstage := hok c hc
    -- The events that are staged are of the third kind.
    have hnone (life' : ℕ) (event' : Event) (hsingle : event'.isSingle = true) :
        events.countP (QueuedDispatch.isOf life' event') = 0 := by
      rw [List.countP_eq_zero]
      intro e he hisOf
      simp only [QueuedDispatch.isOf, Bool.and_eq_true, beq_iff_eq, (hevents e he).2] at hisOf
      rw [← hisOf.2] at hsingle
      cases hsingle
    rw [heq]
    refine h.staged ?_ ?_ ?_
    · intro life' event' hsingle
      have hcount := hsame life' event'
      have hzero := hnone life' event' hsingle
      omega
    · intro life' hmutual
      exact absurd (hnone life' .mutualActivated rfl) hmutual
    · rw [List.pairwise_append]
      refine ⟨h.ordered, ?_, ?_⟩
      · rw [List.pairwise_iff_forall_sublist]
        intro e e' hpair
        have he := (hevents e (hpair.subset List.mem_cons_self)).2
        refine ⟨?_, ?_, ?_⟩ <;> intro _ <;> rw [he] <;> intro hevent <;> cases hevent
      · intro e he e' he'
        obtain ⟨hlife, hevent⟩ := hevents e' he'
        exact h.precedes (fun hsingle => by cases hsingle) hstage he (hlife.trans hstage.1) hevent

theorem Timeline.exec (h : Timeline s (before ++ task :: after)) (hallowed : Allowed s input task)
    (hok : Orderly s (before ++ task :: after) input task) :
    Timeline (exec input task s).1 (before ++ ((exec input task s).2 ++ after)) := by
  have hdrop : Timeline s (before ++ after) := by
    refine h.of_fewer fun life event => ?_
    simp only [List.countP_append, List.countP_cons]
    omega
  cases task with
  | dispatchConnectionEvent id life event error => exact h.exec_dispatch hok
  | dispatchPeerActivatedEvent id life => exact h.exec_dispatchPeer hok
  | establishConnection connId peerActivatedHint =>
    cases hc : s.connections connId with
    | none =>
      have hnothing : Np.exec input (.establishConnection connId peerActivatedHint) s = (s,
        []) := by
        rw [Np.exec, establishConnection, onConnection, hc]
      rw [hnothing]
      exact hdrop
    | some c => exact h.exec_announces hallowed id (announces_establish hc (h.marked connId c hc))
  | closeConnection connId error =>
    cases hc : s.connections connId with
    | none =>
      have hnothing : Np.exec input (.closeConnection connId error) s = (s, []) := by
        rw [Np.exec, closeConnection, onConnection, hc]
      rw [hnothing]
      exact hdrop
    | some c =>
      by_cases hclosed : c.state = .inactive ∨ c.deadFired = true
      · have hnothing : Np.exec input (.closeConnection connId error) s = (s, []) := by
          rw [Np.exec, closeConnection, onConnection, hc]
          exact if_pos hclosed
        rw [hnothing]
        exact hdrop
      · have hexec : Np.exec input (.closeConnection connId error) s =
          (s.setConnection connId c.close,
            [.dispatchConnectionEvent connId c.life .dead (some error),
              .removeConnection connId]) := by
          rw [Np.exec, closeConnection, onConnection, hc]
          exact if_neg hclosed
        rw [not_or, Bool.not_eq_true] at hclosed
        have hannounces : Announces s (Np.exec input (.closeConnection connId error) s).1
            (Np.exec input (.closeConnection connId error) s).2 connId c c.close := by
          rw [hexec]
          exact announces_close hc hclosed.2 (h.marked connId c hc)
        exact h.exec_announces hallowed id hannounces
  | _ => exact h.exec_quiet hallowed id (fun _ _ => Task.noConfusion) (fun _ _ => Task.noConfusion)

end Steps

theorem not_isDispatch_of_isStart {task : Task} (h : task.IsStart) : ¬ task.IsDispatch := by
  cases task with
  | dispatchConnectionEvent id life event error => cases h
  | dispatchPeerActivatedEvent id life => cases h
  | _ => exact id

theorem timeline_of_reachable {seed : Fin 0x8000} {lastContext : Fin 9}
    {config : Sections.Config State Task}
    (h : signaling.Reachable Orderly (State.initial seed lastContext) config) :
    Timeline config.state config.held := by
  refine h.held_invariant ?_ ?_ ?_
  · have hnone (id : ℤ) (c : ConnectionInfo) : (State.initial seed lastContext).connections id ≠
      some c := by
      intro hc
      cases hc
    exact {
      wellFormed := State.wellFormed_initial seed lastContext
      lives := fun id c hc => absurd hc (hnone id c)
      unique := fun id _ c _ hc => absurd hc (hnone id c)
      fresh := fun _ _ _ _ => rfl
      once := fun _ _ _ => Nat.zero_le 1
      unfired := fun id c _ hc => absurd hc (hnone id c)
      marked := fun id c hc => absurd hc (hnone id c)
      settled := fun _ _ => rfl
      ordered := List.Pairwise.nil }
  · intro s before after task number hentry hinv
    refine hinv.of_fewer fun life event => ?_
    simp only [List.countP_append, List.countP_cons, Bool.false_eq_true, if_false,
      Task.not_isDispatchOf (not_isDispatch_of_isStart (isStart_of_isEntry hentry))]
    exact Nat.le_of_eq rfl
  · intro s before after task input hallowed hok hinv
    exact hinv.exec hallowed hok

/-! ## The events of one connection -/

/-- The events that were staged for a connection. -/
def eventsOf (s : State) (life : ℕ) : List Event :=
  (s.dispatchQueue.filter fun dispatch => dispatch.life = life).map QueuedDispatch.event

/-- The order of the events of one connection. -/
structure Event.Precedes (event event' : Event) : Prop where
  dead : event ≠ .dead
  established : event = .established → event' ≠ .established
  mutualActivated : event = .mutualActivated → event' ≠ .established ∧ event' ≠ .mutualActivated

theorem eventsOf_pairwise {s : State} (h : s.dispatchQueue.Pairwise QueuedDispatch.Precedes)
    (life : ℕ) :
    (eventsOf s life).Pairwise Event.Precedes := by
  rw [eventsOf, List.pairwise_map, List.pairwise_filter]
  refine h.imp ?_
  intro e e' hprecedes hlife hlife'
  have hsame : e.life = e'.life := by
    rw [of_decide_eq_true hlife, of_decide_eq_true hlife']
  exact ⟨hprecedes.dead hsame, hprecedes.established hsame, hprecedes.mutualActivated hsame⟩

theorem count_le_one_of_pairwise [DecidableEq α] {R : α → α → Prop} {x : α} {xs : List α}
    (h : xs.Pairwise R) (hx : ¬ R x x) : xs.count x ≤ 1 := by
  induction xs with
  | nil => exact Nat.zero_le 1
  | cons y ys ih =>
    rw [List.pairwise_cons] at h
    by_cases hy : y = x
    · subst hy
      have hnone : ys.count y = 0 := List.count_eq_zero_of_not_mem fun hmem => hx (h.1 y hmem)
      rw [List.count_cons_self]
      omega
    · rw [List.count_cons_of_ne hy]
      exact ih h.2

/-- The events of a connection come once and in their order, and none follows its `DEAD`. -/
theorem events_in_order {seed : Fin 0x8000} {lastContext : Fin 9}
    {config : Sections.Config State Task}
    (h : signaling.Reachable Orderly (State.initial seed lastContext) config) (life : ℕ) :
    (eventsOf config.state life).count .established ≤ 1 ∧
    (eventsOf config.state life).count .mutualActivated ≤ 1 ∧
    (eventsOf config.state life).count .dead ≤ 1 ∧
    (∀ before after, eventsOf config.state life = before ++ .mutualActivated :: after →
      .established ∉ after) ∧
    ∀ before after, eventsOf config.state life = before ++ .dead :: after → after = [] := by
  have hpairwise := eventsOf_pairwise (timeline_of_reachable h).ordered life
  refine ⟨?_, ?_, ?_, ?_, ?_⟩
  · exact count_le_one_of_pairwise hpairwise fun hself => hself.established rfl rfl
  · exact count_le_one_of_pairwise hpairwise fun hself => (hself.mutualActivated rfl).2 rfl
  · exact count_le_one_of_pairwise hpairwise fun hself => hself.dead rfl
  · intro before after hevents hmem
    rw [hevents, List.pairwise_append, List.pairwise_cons] at hpairwise
    exact ((hpairwise.2.1.1 .established hmem).mutualActivated rfl).1 rfl
  · intro before after hevents
    rw [hevents, List.pairwise_append, List.pairwise_cons] at hpairwise
    rw [List.eq_nil_iff_forall_not_mem]
    intro event hmem
    exact (hpairwise.2.1.1 event hmem).dead rfl

/-- A test for `Orderly`. -/
def orderlyNow (s : State) (held : List Task) (_input : Input) : Task → Bool
  | .dispatchConnectionEvent id life event _ =>
    (s.connections id).all (fun c => c.life == life) &&
      s.dispatchQueue.countP (QueuedDispatch.isOf life .dead) == 0 &&
      (event != .mutualActivated || held.countP (Task.isDispatchOf life .established) == 0)
  | .dispatchPeerActivatedEvent _ _ => false
  | _ => true

theorem orderly_of_now {s : State} {held : List Task} {input : Input} {task : Task}
    (h : orderlyNow s held input task = true) : Orderly s held input task := by
  cases task with
  | dispatchConnectionEvent id life event error =>
    intro c hc
    simp only [orderlyNow, hc, Option.all_some, Bool.and_eq_true, beq_iff_eq, Bool.or_eq_true,
      bne_iff_ne] at h
    exact ⟨h.1.1, fun _ => h.1.2, fun hmutual => h.2.resolve_left fun hne => hne hmutual⟩
  | dispatchPeerActivatedEvent id life => cases h
  | _ => trivial

theorem events_in_order_sample :
    eventsOf (sampleConfig (sampleActivated ++ sampleHandshake)).state 0 = [.established] ∧
    (eventsOf (sampleConfig (sampleActivated ++ sampleHandshake)).state 0).count .established ≤
      1 := by
  have hreachable : signaling.Reachable Orderly (State.initial 0 0)
      (sampleConfig (sampleActivated ++ sampleHandshake)) :=
    sampleConfig_reachable orderlyNow (fun _ _ _ _ => orderly_of_now) (by decide)
  exact ⟨by decide, (events_in_order hreachable 0).1⟩

/-- The connection is established and then ended, and the thread that established it stages its
event last. -/
def sampleOverlap : List (Sections.Move Task Input) :=
  sampleActivated ++ sampleHandshake.dropLast ++ sampleCall 3 (.terminateConnection 1 1) 3 ++
    [.run 0 sampleInput]

/-- `ESTABLISHED` follows `DEAD`. -/
theorem event_after_dead :
    ¬ ∀ config, signaling.Reachable Sections.anyRun (State.initial 0 0) config →
      ∀ life before after, eventsOf config.state life = before ++ .dead :: after → after = [] := by
  intro h
  have hreachable : signaling.Reachable Sections.anyRun (State.initial 0 0)
    (sampleConfig sampleOverlap) :=
    sampleConfig_anyRun (by decide)
  have hevents : eventsOf (sampleConfig sampleOverlap).state 0 = [] ++ .dead :: [.established] := by
    decide
  cases h _ hreachable 0 [] [.established] hevents

end PS4Droid.Np
