import Mathlib.Data.Int.Notation
import Mathlib.Data.List.Basic

/-!
# The session of the emulator runtime

`Box64EmulatorRuntime` owns at most one process. Its `launch` and `stop`, which a mutex serialises,
call collaborators that may return or throw at every point; what each of them does in one call is an
argument of the model. Processes are numbered in the order of their launches, and the model keeps
which of them a waiter saw exit and which were destroyed forcibly.
-/

namespace PS4Droid.Runtime

inductive RuntimeErrorCode where
  | translatorStartFailed
  deriving DecidableEq

inductive RuntimeState where
  | idle
  | preparing (stage : String)
  | running (sessionId : String)
  | stopping
  | stopped (exitCode : ℤ)
  | failed (code : RuntimeErrorCode) (detail : String)
  deriving DecidableEq

/-- The states in which a call may leave the session. -/
def RuntimeState.Settled : RuntimeState → Prop
  | .preparing _ | .stopping => False
  | _ => True

/-- `TimeoutCancellationException`, any other `CancellationException`, and the other exceptions. -/
inductive ThrowableKind where
  | timeout
  | cancellation
  | exception
  deriving DecidableEq

structure Throwable where
  kind : ThrowableKind
  message : Option String
  simpleName : String
  deriving DecidableEq

def Throwable.isCancellation (e : Throwable) : Bool :=
  e.kind ≠ .exception

/-- `exception.message ?: exception.javaClass.simpleName`. -/
def Throwable.text (e : Throwable) : String :=
  e.message.getD e.simpleName

structure DiagnosticEvent where
  category : String
  message : String
  deriving DecidableEq

structure Session where
  state : RuntimeState
  ownedProcess : Option ℕ
  diagnostics : List DiagnosticEvent
  launched : ℕ
  observedExit : List ℕ
  destroyedForcibly : List ℕ
  deriving DecidableEq

def Session.initial : Session := ⟨.idle, none, [], 0, [], []⟩

/-- How a call ends: with a `Result`, or with an exception. -/
inductive CallResult (α : Type) where
  | success (value : α)
  | failure (e : Throwable)
  | thrown (e : Throwable)
  deriving DecidableEq

def illegalState (message : String) : Throwable :=
  ⟨.exception, some message, "IllegalStateException"⟩

/-- What the collaborators of one `launch` do. The launcher returns the handle of a new process,
and `ensureActive` throws when the caller has been cancelled meanwhile. -/
structure LaunchCalls where
  sessionId : Except Throwable String
  create : Except Throwable Unit
  launch : Except Throwable Unit
  ensureActive : Except Throwable Unit
  destroyForcibly : Except Throwable Unit

/-- What the collaborators of one `stop` do, in the order of the calls. -/
structure StopCalls where
  send : Except Throwable Unit
  waitGraceful : Except Throwable Bool
  destroy : Except Throwable Unit
  waitDestroyed : Except Throwable Bool
  destroyForcibly : Except Throwable Unit
  exitCode : Except Throwable (Option ℤ)

namespace Session

variable (s : Session)

def emitDiagnostic (category : String) (e : Throwable) : Session :=
  { s with diagnostics := s.diagnostics ++ [⟨category, e.text⟩] }

/-- Whether `launch` gets past its guard. -/
def accepts : Bool :=
  s.ownedProcess.isNone &&
    match s.state with
    | .preparing _ | .running _ | .stopping => false
    | _ => true

/-! ### `launch` -/

/-- The `try` block of `launch`: the process that was started, if any, and how the block ends. -/
def launchBody (calls : LaunchCalls) : Option ℕ × Except Throwable Unit × Session :=
  match calls.create with
  | .error e => (none, .error e, s)
  | .ok () =>
    match calls.launch with
    | .error e => (none, .error e, s)
    | .ok () =>
      let process := s.launched
      let s := { s with launched := s.launched + 1 }
      match calls.ensureActive with
      | .error e => (some process, .error e, s)
      | .ok () => (some process, .ok (), s)

/-- `startedProcess?.destroyForcibly()`; what it throws is only attached to the first exception. -/
def destroyStarted (process : Option ℕ) : Session :=
  match process with
  | none => s
  | some process => { s with destroyedForcibly := process :: s.destroyedForcibly }

def launch (calls : LaunchCalls) : CallResult String × Session :=
  if ¬ s.accepts then (.failure (illegalState "A runtime session is active"), s)
  else
    let s := { s with state := .preparing "launch" }
    match calls.sessionId with
    -- the session id is requested before the `try` block
    | .error e => (.thrown e, s)
    | .ok sessionId =>
      match s.launchBody calls with
      | (process, .ok (), s) =>
        (.success sessionId, { s with ownedProcess := process, state := .running sessionId })
      | (process, .error e, s) =>
        let s := s.destroyStarted process
        if e.isCancellation then (.thrown e, { s with state := .idle })
        else
          let s := { s with state := .failed .translatorStartFailed e.text }
          (.failure e, s.emitDiagnostic "launch" e)

end Session

/-! ### `stop` -/

/-- The two variables in which `stop` keeps the exception it reports. -/
structure Recorded where
  failure : Option Throwable
  explicitCancellation : Option Throwable
  deriving DecidableEq

def Recorded.recordFailure (r : Recorded) (e : Throwable) : Recorded :=
  if r.explicitCancellation.isNone ∧ r.failure.isNone then { r with failure := some e } else r

def Recorded.recordCancellation (r : Recorded) (e : Throwable) : Recorded :=
  if r.explicitCancellation.isNone then ⟨none, some e⟩ else r

namespace Session

variable (s : Session)

def sendStop (calls : StopCalls) (stopMessageTimeoutMillis : ℕ) (r : Recorded) :
    Recorded × Session :=
  match calls.send with
  | .ok () => (r, s)
  | .error e =>
    match e.kind with
    | .timeout =>
      let e := illegalState s!"Timed out sending Stop after {stopMessageTimeoutMillis}ms"
      (r.recordFailure e, s.emitDiagnostic "protocol" e)
    | .cancellation => (r.recordCancellation e, s)
    | .exception => (r.recordFailure e, s.emitDiagnostic "protocol" e)

def forceDestroyPreservingFailure (process : ℕ) (calls : StopCalls) (r : Recorded) :
    Recorded × Session :=
  let s := { s with destroyedForcibly := process :: s.destroyedForcibly }
  match calls.destroyForcibly with
  | .ok () => (r, s)
  | .error e => (r.recordFailure e, s)

/-- The handlers around the waiters of `stop`. -/
def waitFailed (process : ℕ) (calls : StopCalls) (r : Recorded) (e : Throwable) :
    Recorded × Session :=
  if e.isCancellation then
    s.forceDestroyPreservingFailure process calls (r.recordCancellation e)
  else
    let (r, s) := s.forceDestroyPreservingFailure process calls (r.recordFailure e)
    (r, s.emitDiagnostic "process" e)

/-- A waiter saw the process exit. -/
def observe (process : ℕ) : Session :=
  { s with observedExit := process :: s.observedExit }

def waitForExit (process : ℕ) (calls : StopCalls) (r : Recorded) : Recorded × Session :=
  match calls.waitGraceful with
  | .error e => s.waitFailed process calls r e
  | .ok true => (r, s.observe process)
  | .ok false =>
    match calls.destroy with
    | .error e => s.waitFailed process calls r e
    | .ok () =>
      match calls.waitDestroyed with
      | .error e => s.waitFailed process calls r e
      | .ok true => (r, s.observe process)
      | .ok false => s.forceDestroyPreservingFailure process calls r

/-- The `finally` block of `stop`. -/
def release (calls : StopCalls) (r : Recorded) : Recorded × Session :=
  let s := { s with ownedProcess := none }
  match calls.exitCode with
  | .ok exitCode => (r, { s with state := .stopped (exitCode.getD (-1)) })
  | .error e => (r.recordFailure e, { s with state := .stopped (-1) })

def stop (calls : StopCalls) (stopMessageTimeoutMillis : ℕ) : CallResult Unit × Session :=
  match s.ownedProcess with
  | none => (.failure (illegalState "No runtime session is active"), s)
  | some process =>
    let s := { s with state := .stopping }
    let (r, s) := s.sendStop calls stopMessageTimeoutMillis ⟨none, none⟩
    let (r, s) := s.waitForExit process calls r
    let (r, s) := s.release calls r
    match r.explicitCancellation, r.failure with
    | some e, _ => (.thrown e, s)
    | none, some e => (.failure e, s)
    | none, none => (.success (), s)

/-! ### Runs -/

/-- A call of the session with what its collaborators do. -/
inductive Op where
  | launch (calls : LaunchCalls)
  | stop (calls : StopCalls) (stopMessageTimeoutMillis : ℕ)

def step (op : Op) : Session :=
  match op with
  | .launch calls => (s.launch calls).2
  | .stop calls stopMessageTimeoutMillis => (s.stop calls stopMessageTimeoutMillis).2

/-- A launch that gets past the guard is given a session id. -/
def IdProvided (op : Op) : Prop :=
  match op with
  | .launch calls => s.accepts = true → ∃ sessionId, calls.sessionId = .ok sessionId
  | .stop _ _ => True

/-- The sessions after calls that were all given a session id when they asked for one. -/
inductive Reachable : Session → Prop where
  | initial : Reachable .initial
  | step {s : Session} {op : Op} : Reachable s → s.IdProvided op → Reachable (s.step op)

/-- A process that is not owned was seen to exit or was destroyed forcibly. -/
def NoOrphans : Prop :=
  ∀ process < s.launched, s.ownedProcess = some process ∨ process ∈ s.observedExit ∨
    process ∈ s.destroyedForcibly

/-- What a call leaves: a settled state, which is the running one exactly when a process is owned,
no process left alone, and a session that accepts a launch unless it owns a process. -/
structure Consistent : Prop where
  settled : s.state.Settled
  running_iff : s.ownedProcess.isSome ↔ ∃ sessionId, s.state = .running sessionId
  noOrphans : s.NoOrphans
  accepts : s.ownedProcess = none → s.accepts = true

variable {s}

theorem consistent_initial : Session.initial.Consistent where
  settled := trivial
  running_iff := by simp [Session.initial]
  noOrphans process h := absurd h (Nat.not_lt_zero _)
  accepts _ := rfl

/-- A session that owns nothing is consistent when its state says so. -/
theorem consistent_of_none (hsettled : s.state.Settled) (hnone : s.ownedProcess = none)
    (hrunning : ∀ sessionId, s.state ≠ .running sessionId) (horphans : s.NoOrphans) :
    s.Consistent where
  settled := hsettled
  running_iff := by
    simp only [hnone, Option.isSome_none, Bool.false_eq_true, false_iff, not_exists]
    exact hrunning
  noOrphans := horphans
  accepts _ := by
    unfold Session.accepts
    cases hstate : s.state with
    | preparing stage => simp [hstate, RuntimeState.Settled] at hsettled
    | running sessionId => exact absurd hstate (hrunning sessionId)
    | stopping => simp [hstate, RuntimeState.Settled] at hsettled
    | idle => simp [hnone]
    | stopped exitCode => simp [hnone]
    | failed code detail => simp [hnone]

theorem launchBody_spec (calls : LaunchCalls) :
    ∃ launched, (s.launchBody calls).2.2 = { s with launched := launched } ∧
      ((launched = s.launched ∧ (s.launchBody calls).1 = none ∧
          ∃ e, (s.launchBody calls).2.1 = .error e) ∨
        (launched = s.launched + 1 ∧ (s.launchBody calls).1 = some s.launched)) := by
  unfold launchBody
  cases calls.create with
  | error e => exact ⟨_, rfl, .inl ⟨rfl, rfl, e, rfl⟩⟩
  | ok u =>
    cases calls.launch with
    | error e => exact ⟨_, rfl, .inl ⟨rfl, rfl, e, rfl⟩⟩
    | ok v =>
      cases calls.ensureActive with
      | error e | ok w => exact ⟨_, rfl, .inr ⟨rfl, rfl⟩⟩

theorem Consistent.launch (h : s.Consistent) {calls : LaunchCalls}
    (hid : s.IdProvided (.launch calls)) : (s.launch calls).2.Consistent := by
  unfold Session.launch
  by_cases haccepts : s.accepts = true
  · obtain ⟨sessionId, hsession⟩ := hid haccepts
    have hnone : s.ownedProcess = none := by
      simp only [Session.accepts, Bool.and_eq_true, Option.isNone_iff_eq_none] at haccepts
      exact haccepts.1
    have hended : ∀ process < s.launched, process ∈ s.observedExit ∨
        process ∈ s.destroyedForcibly := by
      intro process hlt
      have horphans := h.noOrphans process hlt
      simpa [hnone] using horphans
    rw [if_neg (by simpa using haccepts)]
    simp only [hsession]
    obtain ⟨launched, hbody, hstarted⟩ :=
      launchBody_spec (s := { s with state := .preparing "launch" }) calls
    generalize Session.launchBody { s with state := .preparing "launch" } calls = body
      at hbody hstarted
    obtain ⟨process, result, after⟩ := body
    simp only at hbody hstarted
    subst hbody
    cases result with
    | ok u =>
      obtain ⟨-, -, e, hfail⟩ | ⟨rfl, rfl⟩ := hstarted
      · cases hfail
      · refine ⟨trivial, by simp, fun other hlt => ?_, nofun⟩
        rcases Nat.lt_succ_iff_lt_or_eq.1 hlt with hold | rfl
        · exact .inr (hended other hold)
        · exact .inl rfl
    | error e =>
      have horphans : (({ s with state := .preparing "launch", launched := launched } :
          Session).destroyStarted process).NoOrphans := by
        intro other hlt
        obtain ⟨rfl, rfl, -⟩ | ⟨rfl, rfl⟩ := hstarted
        · exact .inr (hended other hlt)
        · rcases Nat.lt_succ_iff_lt_or_eq.1 hlt with hold | rfl
          · exact .inr ((hended other hold).imp id (List.mem_cons_of_mem _))
          · exact .inr (.inr (.head _))
      have howned : (({ s with state := .preparing "launch", launched := launched } :
          Session).destroyStarted process).ownedProcess = none := by
        cases process <;> exact hnone
      simp only
      split_ifs
      · exact consistent_of_none trivial howned nofun horphans
      · exact consistent_of_none trivial howned nofun horphans
  · rw [if_pos haccepts]
    exact h

/-- The process has been seen to exit or been destroyed, and no other one is forgotten. -/
structure Ends (process : ℕ) (s after : Session) : Prop where
  launched : after.launched = s.launched
  observed : s.observedExit ⊆ after.observedExit
  destroyed : s.destroyedForcibly ⊆ after.destroyedForcibly
  ended : process ∈ after.observedExit ∨ process ∈ after.destroyedForcibly

theorem forceDestroy_ends (process : ℕ) (calls : StopCalls) (r : Recorded) :
    Ends process s (s.forceDestroyPreservingFailure process calls r).2 := by
  unfold forceDestroyPreservingFailure
  cases calls.destroyForcibly <;>
    exact ⟨rfl, List.Subset.refl _, List.subset_cons_self _ _, .inr (.head _)⟩

theorem waitFailed_ends (process : ℕ) (calls : StopCalls) (r : Recorded) (e : Throwable) :
    Ends process s (s.waitFailed process calls r e).2 := by
  unfold waitFailed
  split_ifs
  · exact forceDestroy_ends process calls _
  · exact { forceDestroy_ends process calls (r.recordFailure e) with }

theorem observe_ends (process : ℕ) : Ends process s (s.observe process) :=
  ⟨rfl, List.subset_cons_self _ _, List.Subset.refl _, .inl (.head _)⟩

/-- Whatever the waiters and the destroy calls do, the process does not stay behind. -/
theorem waitForExit_ends (process : ℕ) (calls : StopCalls) (r : Recorded) :
    Ends process s (s.waitForExit process calls r).2 := by
  unfold waitForExit
  cases calls.waitGraceful with
  | error e => exact waitFailed_ends process calls r e
  | ok exited =>
    cases exited with
    | true => exact observe_ends process
    | false =>
      cases calls.destroy with
      | error e => exact waitFailed_ends process calls r e
      | ok u =>
        cases calls.waitDestroyed with
        | error e => exact waitFailed_ends process calls r e
        | ok exited =>
          cases exited with
          | true => exact observe_ends process
          | false => exact forceDestroy_ends process calls r

/-- Sending the stop message changes nothing but the diagnostics. -/
theorem sendStop_eq (calls : StopCalls) (stopMessageTimeoutMillis : ℕ) (r : Recorded) :
    ∃ diagnostics, (s.sendStop calls stopMessageTimeoutMillis r).2 =
      { s with diagnostics := diagnostics } := by
  unfold sendStop
  cases calls.send with
  | ok u => exact ⟨_, rfl⟩
  | error e =>
    simp only
    cases e.kind <;> exact ⟨_, rfl⟩

theorem release_eq (calls : StopCalls) (r : Recorded) : ∃ exitCode, (s.release calls r).2 =
      { s with ownedProcess := none, state := .stopped exitCode } := by
  unfold release
  cases calls.exitCode <;> exact ⟨_, rfl⟩

theorem Consistent.stop (h : s.Consistent) (calls : StopCalls) (stopMessageTimeoutMillis : ℕ) :
    (s.stop calls stopMessageTimeoutMillis).2.Consistent := by
  unfold Session.stop
  cases howned : s.ownedProcess with
  | none => exact h
  | some process =>
    simp only
    -- the session as it is while the process is stopped
    generalize hstopping : ({ s with state := .stopping, ownedProcess := some process } :
      Session) = stopping
    have hsent := sendStop_eq (s := stopping) calls stopMessageTimeoutMillis ⟨none, none⟩
    generalize stopping.sendStop calls stopMessageTimeoutMillis ⟨none, none⟩ = sent at hsent
    obtain ⟨r, s₁⟩ := sent
    obtain ⟨diagnostics, rfl⟩ := hsent
    have hwaited := waitForExit_ends (s := { stopping with diagnostics := diagnostics })
      process calls r
    generalize Session.waitForExit { stopping with diagnostics := diagnostics } process calls r =
      waited at hwaited
    obtain ⟨r₂, s₂⟩ := waited
    have hreleased := release_eq (s := s₂) calls r₂
    simp only at hwaited hreleased ⊢
    generalize s₂.release calls r₂ = released at hreleased
    obtain ⟨r₃, s₃⟩ := released
    obtain ⟨exitCode, rfl⟩ := hreleased
    have hconsistent : Consistent { s₂ with ownedProcess := none, state := .stopped exitCode } := by
      subst hstopping
      refine consistent_of_none trivial rfl nofun fun other hlt => .inr ?_
      rw [show s₂.launched = s.launched from hwaited.launched] at hlt
      rcases h.noOrphans other hlt with hother | hobserved | hdestroyed
      · rw [howned] at hother
        obtain rfl := Option.some.inj hother
        exact hwaited.ended
      · exact .inl (hwaited.observed hobserved)
      · exact .inr (hwaited.destroyed hdestroyed)
    cases r₃.explicitCancellation <;> cases r₃.failure <;> exact hconsistent

/-- Every run in which the session id is always provided leaves the session consistent after each
call. -/
theorem Reachable.consistent (h : Reachable s) : s.Consistent := by
  induction h with
  | initial => exact consistent_initial
  | @step s op _ hid ih =>
    cases op with
    | launch calls => exact ih.launch hid
    | stop calls stopMessageTimeoutMillis => exact ih.stop calls stopMessageTimeoutMillis

end Session

/-- A launch in which every collaborator returns. -/
def smoothLaunch : LaunchCalls := ⟨.ok "a", .ok (), .ok (), .ok (), .ok ()⟩

theorem Session.consistent_smoothLaunch :
    (Session.initial.step (.launch smoothLaunch)).Consistent :=
  Session.Reachable.consistent (.step .initial fun _ => ⟨"a", rfl⟩)

/-- The provider of session ids throws: the session stays in preparation for ever, owns nothing and
refuses every launch. -/
theorem Session.stuck_preparing :
    (Session.initial.step (.launch { smoothLaunch with
        sessionId := .error (illegalState "no id") })).state = .preparing "launch" ∧
      (Session.initial.step (.launch { smoothLaunch with
        sessionId := .error (illegalState "no id") })).ownedProcess = none ∧
      (Session.initial.step (.launch { smoothLaunch with
        sessionId := .error (illegalState "no id") })).accepts = false ∧
      ¬ (Session.initial.step (.launch { smoothLaunch with
        sessionId := .error (illegalState "no id") })).Consistent :=
  ⟨rfl, rfl, rfl, fun h => h.settled⟩

end PS4Droid.Runtime
