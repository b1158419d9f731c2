import PS4Droid.Fiber.Ownership

/-!
# The threads that have a fiber

The stages of the invariant are told apart by the fields that the source reads: the current and the
previous fiber of a context, the state that waits for the new stack, and the fiber that was claimed.
-/

namespace PS4Droid.Fiber

/-! ## Threads and the fibers they have -/

namespace Thread

def IsCurrent (th : Thread) (fiber : ℕ) : Prop := th.currentFiber = some fiber

/-- The fiber is the previous one until its state is idle, or waits for the new stack, or was just
taken out of the context by `sceFiberRunImpl`. -/
def IsLeaving (th : Thread) (fiber : ℕ) : Prop :=
  th.prevFiber = some fiber ∧ th.place ≠ .resumedIdle ∨
  (∃ next data, th.place = .switchEntry next data ∧ data.state = some fiber) ∨
    th.place = .runIdle fiber

/-- The state of the fiber was exchanged, and the fiber is not yet the current one. -/
def HasClaimed (th : Thread) (fiber : ℕ) : Prop :=
  (∃ arg, th.place = .runClaimed fiber arg) ∨ (∃ arg, th.place = .switchClaimed fiber arg) ∨
  ∃ curFiber arg, th.place = .switch curFiber fiber arg

def Has (th : Thread) (fiber : ℕ) : Prop :=
  th.IsCurrent fiber ∨ th.IsLeaving fiber ∨ th.HasClaimed fiber

end Thread

section Threads

variable {info : ℕ → FiberInfo} {context : ℕ → Option Continuation} {th : Thread} {fiber : ℕ}

theorem holding_ne_none {o : Option ℕ} {stage : Stage} {others : ℕ → Option Stage} {f : ℕ} :
    holding o stage others f ≠ none ↔ o = some f ∨ others f ≠ none := by
  cases o with
  | none => simp
  | some g =>
    by_cases hf : f = g
    · simp [hf]
    · simp [hf, Ne.symm hf]

theorem stage_ne_none_iff (h : Valid info context th) : th.stage fiber ≠ none ↔ th.Has fiber := by
  obtain ⟨tcbFiber, code, place, result⟩ := th
  have hno : holdingNone fiber ≠ none ↔ False := by simp
  rw [Thread.Has, Thread.IsCurrent, Thread.IsLeaving, Thread.HasClaimed, Thread.stage]
  cases place with
  | guest | finalize =>
    rcases h with ⟨rfl, -⟩ | ⟨f, ctx, rfl, hcurrent, hprev, -⟩
    · simp only [holding_ne_none, hno]
      simp [Thread.currentFiber, Thread.prevFiber]
    · simp only [holding_ne_none, hno]
      simp [Thread.currentFiber, Thread.prevFiber, hcurrent, hprev]
  | runClaim | runClaimed =>
    obtain ⟨⟨rfl, -⟩, -⟩ := h
    simp only [holding_ne_none, hno]
    simp [Thread.currentFiber, Thread.prevFiber]
  | switchClaim =>
    obtain ⟨-, f, ctx, rfl, hcurrent, hprev, -⟩ := h
    simp only [holding_ne_none, hno]
    simp [Thread.currentFiber, Thread.prevFiber, hcurrent, hprev]
  | switchClaimed =>
    obtain ⟨f, ⟨ctx, rfl, hcurrent, hprev, -⟩, -⟩ := h
    simp only [holding_ne_none, hno]
    simp [Thread.currentFiber, Thread.prevFiber, hcurrent, hprev, or_comm]
  | switch =>
    obtain ⟨⟨ctx, rfl, hcurrent, hprev, -⟩, -⟩ := h
    simp only [holding_ne_none, hno]
    simp [Thread.currentFiber, Thread.prevFiber, hcurrent, hprev, or_comm]
  | returnToThread | terminate =>
    obtain ⟨f, ctx, rfl, hcurrent, hprev, -⟩ := h
    simp only [holding_ne_none, hno]
    simp [Thread.currentFiber, Thread.prevFiber, hcurrent, hprev]
  | runReturned =>
    obtain ⟨ctx, f, rfl, hcurrent, hprev, -⟩ := h
    simp only [holding_ne_none, hno]
    simp [Thread.currentFiber, Thread.prevFiber, hcurrent, hprev]
  | runSaved | runIdle | runDone | switchEntry =>
    obtain ⟨ctx, rfl, hcurrent, hprev, -⟩ := h
    simp only [holding_ne_none, hno]
    simp [Thread.currentFiber, Thread.prevFiber, hcurrent, hprev]
  | switchToFiber | longJmp | resumed | resumedIdle =>
    simp only [holding_ne_none, hno]
    simp [Thread.currentFiber, Thread.prevFiber]

theorem has_of_code (h : Valid info context th) (hcode : th.code = .fiber fiber) :
    th.Has fiber := by
  obtain ⟨tcbFiber, code, place, result⟩ := th
  obtain rfl : code = .fiber fiber := hcode
  cases place with
  | guest | finalize =>
    rcases h with ⟨-, hcode⟩ | ⟨f, ctx, rfl, hcurrent, -, hcode⟩
    · cases hcode
    · cases hcode
      exact .inl hcurrent
  | runClaim | runClaimed => cases h.1.2
  | switchClaim =>
    obtain ⟨-, f, ctx, rfl, hcurrent, -, hcode⟩ := h
    cases hcode
    exact .inl hcurrent
  | switchClaimed =>
    obtain ⟨f, ⟨ctx, rfl, hcurrent, -, hcode⟩, -⟩ := h
    cases hcode
    exact .inl hcurrent
  | switch =>
    obtain ⟨⟨ctx, rfl, hcurrent, -, hcode⟩, -⟩ := h
    cases hcode
    exact .inl hcurrent
  | returnToThread | terminate =>
    obtain ⟨f, ctx, rfl, hcurrent, -, hcode⟩ := h
    cases hcode
    exact .inl hcurrent
  | resumed =>
    obtain ⟨ctx, f, rfl, hcurrent, hcode, -⟩ := h
    cases hcode
    exact .inl hcurrent
  | resumedIdle =>
    obtain ⟨ctx, f, rfl, hcurrent, hcode⟩ := h
    cases hcode
    exact .inl hcurrent
  | runReturned =>
    obtain ⟨ctx, f, -, -, -, hcode⟩ := h
    cases hcode
  | runSaved | runIdle | runDone =>
    obtain ⟨ctx, -, -, -, hcode⟩ := h
    cases hcode
  | switchEntry next data =>
    obtain ⟨ctx, rfl, -, -, hfrom, -⟩ := h
    cases hstate : data.state with
    | none =>
      rw [hstate] at hfrom
      cases hfrom
    | some prevFiber =>
      rw [hstate] at hfrom
      cases hfrom.1
      exact .inr (.inl (.inr (.inl ⟨next, data, rfl, hstate⟩)))
  | switchToFiber =>
    obtain ⟨ctx, rfl, -, hfrom⟩ := h
    cases hprev : ctx.prevFiber with
    | none =>
      rw [hprev] at hfrom
      cases hfrom
    | some prevFiber =>
      rw [hprev] at hfrom
      cases hfrom.1
      exact .inr (.inl (.inl ⟨hprev, nofun⟩))
  | longJmp =>
    obtain ⟨ctx, f, rfl, -, hfrom, -⟩ := h
    cases hprev : ctx.prevFiber with
    | none =>
      rw [hprev] at hfrom
      cases hfrom
    | some prevFiber =>
      rw [hprev] at hfrom
      cases hfrom.1
      exact .inr (.inl (.inl ⟨hprev, nofun⟩))

variable {s : State}

/-- Every initialised fiber fits some stage, which is the one at the thread that has it. -/
theorem Inv.fits (h : Inv info s) (hfiber : Initialised info fiber) :
    (∃ t stage, (s.threads t).stage fiber = some stage ∧ FiberFits info s fiber (some stage)) ∨
      (∀ t, (s.threads t).stage fiber = none) ∧ FiberFits info s fiber none := by
  by_cases hfree : ∀ t, (s.threads t).stage fiber = none
  · exact .inr ⟨hfree, h.free fiber hfiber hfree⟩
  · obtain ⟨t, ht⟩ := not_forall.mp hfree
    obtain ⟨stage, hstage⟩ := Option.ne_none_iff_exists'.mp ht
    exact .inl ⟨t, stage, hstage, h.held t fiber stage hstage⟩

theorem FiberFits.lifecycle_eq {stage : Option Stage} (h : FiberFits info s fiber stage) :
    ∃ phase, lifecycle (hasStack info fiber) (s.log fiber) = some phase := by
  cases stage with
  | none =>
    rcases h.lives with ⟨-, hlife⟩ | ⟨-, hlife⟩
    · exact ⟨_, hlife⟩
    · exact ⟨_, hlife⟩
  | some stage =>
    cases stage with
    | entering => exact ⟨_, h.lives.2⟩
    | running => exact ⟨_, h.lives.2⟩
    | leaving =>
      rcases h.lives.2 with ⟨-, k, -, hlife⟩ | ⟨-, hlife⟩
      · exact ⟨_, hlife⟩
      · exact ⟨_, hlife⟩

theorem Inv.lifecycle_eq (h : Inv info s) (hfiber : Initialised info fiber) :
    ∃ phase, lifecycle (hasStack info fiber) (s.log fiber) = some phase := by
  rcases h.fits hfiber with ⟨t, stage, -, hfits⟩ | ⟨-, hfits⟩
  · exact hfits.lifecycle_eq
  · exact hfits.lifecycle_eq

/-- The state of a fiber is `Run` exactly when a thread has it, and then one thread has it. -/
theorem Inv.run_iff (h : Inv info s) (hfiber : Initialised info fiber) :
    s.fiberState fiber = .run ↔ ∃! t, (s.threads t).Has fiber := by
  have hhas (t : ℕ) : (s.threads t).stage fiber ≠ none ↔ (s.threads t).Has fiber :=
    stage_ne_none_iff (h.valid t)
  constructor
  · intro hrun
    rcases h.fits hfiber with ⟨t, stage, hstage, -⟩ | ⟨-, hfits⟩
    · have hheld : (s.threads t).stage fiber ≠ none := by simp [hstage]
      exact ⟨t, (hhas t).mp hheld, fun t' ht' => h.alone t' t fiber ((hhas t').mpr ht') hheld⟩
    · rcases hfits.lives with ⟨hstate, -⟩ | ⟨hstate, -⟩
      · cases hrun.symm.trans hstate
      · cases hrun.symm.trans hstate
  · rintro ⟨t, hheld, -⟩
    obtain ⟨stage, hstage⟩ := Option.ne_none_iff_exists'.mp ((hhas t).mpr hheld)
    exact (h.held t fiber stage hstage).state_eq_run

end Threads

/-- A fiber whose state is `Run` is had by one thread: as its current fiber, as the one it leaves,
or as the one it has claimed. No two threads execute the code of a fiber; a fiber with a stack
becomes idle right after it has stored where it goes on; it is run from the continuation that was
stored last; and it is not run once it is terminated. -/
theorem run_on_one_thread {info : ℕ → FiberInfo} {s : State} {fiber : ℕ} (h : Reachable info s)
    (hfiber : Initialised info fiber) :
    (s.fiberState fiber = .run ↔ ∃! t, (s.threads t).Has fiber) ∧
    (∀ t t', (s.threads t).code = .fiber fiber → (s.threads t').code = .fiber fiber → t = t') ∧
    ((info fiber).addrContext ≠ 0 → ∀ newer older, s.log fiber = newer ++ .idled :: older →
      ∃ k rest, older = .stored k :: rest) ∧
    ∀ newer older resumedAt, s.log fiber = newer ++ .ran resumedAt :: older →
      resumedAt = lastStored older ∧ .terminated ∉ older := by
  have hinv := inv_of_reachable h
  obtain ⟨phase, hlife⟩ := hinv.lifecycle_eq hfiber
  refine ⟨hinv.run_iff hfiber, ?_, ?_, ?_⟩
  · intro t t' hcode hcode'
    have hheld := (stage_ne_none_iff (hinv.valid t)).mpr (has_of_code (hinv.valid t) hcode)
    have hheld' := (stage_ne_none_iff (hinv.valid t')).mpr (has_of_code (hinv.valid t') hcode')
    exact hinv.alone t t' fiber hheld hheld'
  · intro hstack newer older hlog
    have hstack : hasStack info fiber = true := bne_iff_ne.mpr hstack
    rw [hlog, hstack] at hlife
    exact idled_stored hlife
  · intro newer older resumedAt hlog
    rw [hlog] at hlife
    exact ⟨ran_lastStored hlife, ran_not_terminated hlife⟩

/-! ## A sample -/

section Sample

def sampleInfo (fiber : ℕ) : FiberInfo :=
  ⟨fiberSignature0, fiberSignature1, 0, 0, 0x1000 * fiber, 512⟩

def sampleState : State := ⟨fun _ => .idle, fun _ => none, fun _ => .start, 0, fun _ => []⟩

theorem sampleState_isInitial : IsInitial sampleInfo sampleState :=
  ⟨fun _ => rfl, fun _ _ => ⟨rfl, rfl, rfl⟩⟩

/-- The steps of one thread that makes these calls. -/
def sampleRun (calls : List Call) : State :=
  calls.foldl (fun s call => step sampleInfo s 0 call 0) sampleState

theorem sampleRun_reachable (calls : List Call) : Reachable sampleInfo (sampleRun calls) :=
  calls.foldlRecOn _ (.start sampleState_isInitial) fun _ h call _ => h.step 0 call 0

/-- A fiber that has returned to its thread is run again. -/
theorem run_on_one_thread_sample :
    let s := sampleRun (List.replicate 5 (.run 8 1) ++ List.replicate 7 (.returnToThread 5) ++
      List.replicate 9 (.run 8 1))
    (∃! t, (s.threads t).Has 8) ∧ (∃ k, s.log 8 = [.ran (some k), .idled, .stored k, .ran none]) ∧
      ∀ newer older resumedAt, s.log 8 = newer ++ .ran resumedAt :: older →
        resumedAt = lastStored older ∧ .terminated ∉ older := by
  intro s
  obtain ⟨hrun, -, -, hresumed⟩ := @run_on_one_thread _ _ 8 (sampleRun_reachable _) rfl
  exact ⟨hrun.mp rfl, ⟨⟨.fiber 8, 0⟩, rfl⟩, hresumed⟩

/-- `sceFiberRun` up to the exchange of the state. -/
def sampleClaimed : State := sampleRun [.run 8 1, .run 8 1]

/-- Between the exchange of the state and the new context, no thread has the fiber in its
context. -/
theorem claimed_by_no_context :
    Reachable sampleInfo sampleClaimed ∧ Initialised sampleInfo 8 ∧
      sampleClaimed.fiberState 8 = .run ∧
    ∀ t, ¬(sampleClaimed.threads t).IsCurrent 8 ∧ ¬(sampleClaimed.threads t).IsLeaving 8 := by
  refine ⟨sampleRun_reachable _, rfl, rfl, ?_⟩
  intro t
  have hthread : sampleClaimed.threads t = { Thread.start with place := .runClaimed 8 1 } ∨
      sampleClaimed.threads t = .start := by
    by_cases ht : t = 0
    · subst ht
      exact .inl rfl
    · exact .inr ((Function.update_of_ne ht _ _).trans (Function.update_of_ne ht _ _))
  rcases hthread with hthread | hthread
  · rw [hthread]
    simp [Thread.IsCurrent, Thread.IsLeaving, Thread.currentFiber, Thread.prevFiber, Thread.start]
  · rw [hthread]
    simp [Thread.IsCurrent, Thread.IsLeaving, Thread.currentFiber, Thread.prevFiber, Thread.start]

end Sample

end PS4Droid.Fiber
