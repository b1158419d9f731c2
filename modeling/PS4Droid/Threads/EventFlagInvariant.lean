import PS4Droid.Threads.EventFlag

/-!
# Event flags are linearizable

In the runs without a wait that begins during a `Cancel`, every call takes effect at one step. The
invariant ties the three things a `Cancel` in progress shares: the threads inside `Wait`, those it
has told `ECANCELED`, and the number it took down when it set its pattern.
-/

namespace PS4Droid.Threads.EventFlag

variable {ι : Type} {s : System ι} {t : ι} {args : WaitArgs}

/-- The threads inside `Wait`. -/
def System.inside [Fintype ι] (s : System ι) : Finset ι :=
  Finset.univ.filter fun t => (s.threads t).isWaiting

theorem System.mem_inside [Fintype ι] : t ∈ s.inside ↔ (s.threads t).isWaiting = true := by
  simp [System.inside]

theorem System.card_inside_setThread [Fintype ι] [DecidableEq ι] (s : System ι) (t : ι)
    (phase : Phase) :
    (s.setThread t phase).inside.card + (s.threads t).isWaiting.toNat =
      s.inside.card + phase.isWaiting.toNat :=
  card_filter_update Finset.univ Phase.isWaiting s.threads (Finset.mem_univ t) phase

/-- The parts of the state that a call of `Cancel` between its pattern and its return shares with
the waiting threads. -/
structure CancelInv (s : System ι) : Prop where
  draining : ∀ t setPattern n, s.threads t = .draining setPattern n →
    s.status = .canceled ∧ s.bits = setPattern ∧ s.canceled + s.waitingThreads = n
  unique : ∀ t t' p p' n n', s.threads t = .draining p n → s.threads t' = .draining p' n' → t = t'
  since_le : ∀ t args since, s.threads t = .waiting args since → since ≤ s.cancels
  since_lt : s.status = .canceled →
    ∀ t args since, s.threads t = .waiting args since → since < s.cancels

structure Inv [Fintype ι] (s : System ι) : Prop where
  count : s.waitingThreads = s.inside.card
  single : s.threadMode = .single → s.waitingThreads ≤ 1
  replay_eq : s.bits = replay s.initial s.log
  not_deleted : s.status ≠ .deleted
  cancel : CancelInv s

/-- The step belongs to a `Wait` with these arguments: it is its beginning, or the thread is
inside. -/
def System.InWait (s : System ι) (op : Op ι) (t : ι) (args : WaitArgs) : Prop :=
  op = .wait t args ∨
    (op = .wake t ∨ op = .timeOut t) ∧ ∃ since, s.threads t = .waiting args since

/-- What the call of the step has done when it returns. -/
def ReturnSpec (s : System ι) (op : Op ι) (s' : System ι) : ι → Return → Prop
  | t, .wait .ok result => ∃ args, s.InWait op t args ∧ s.status = .set ∧
      args.satisfied s.bits = true ∧ result = some s.bits ∧ s'.bits = args.clear s.bits ∧
      s'.log = .consume args :: s.log
  | t, .wait .canceled _ => s.status = .canceled ∧ s'.log = s.log ∧
      ∃ args since, s.threads t = .waiting args since ∧ since < s.cancels
  | t, .wait code _ => s'.log = s.log ∧ ∃ args, s.InWait op t args ∧
      (code = .perm ∧ s.threadMode = .single ∧ 0 < s.waitingThreads ∨
        code = (if args.poll then .busy else .timedOut) ∧ args.timed = true ∧
          args.satisfied s.bits = false)
  | t, .set => op = .attempt t ∧ ∃ bits, s.threads t = .setting bits ∧ s'.log = .set bits :: s.log
  | t, .clear => op = .attempt t ∧
      ∃ bits, s.threads t = .clearing bits ∧ s'.log = .clear bits :: s.log
  | t, .cancel setPattern numWaitThreads => op = .attempt t ∧
      (s.threads t = .canceling setPattern ∧ numWaitThreads = s.waitingThreads ∨
        s.threads t = .draining setPattern numWaitThreads) ∧
      s'.bits = setPattern ∧ s'.status = .set ∧ s'.canceled = numWaitThreads

/-- Where a step that returns nothing leaves its thread: inside the call that it has made. -/
def System.StaysIn (s : System ι) : Op ι → Phase → Prop
  | .wait _ args, phase => args.satisfied s.bits = false ∧ phase = .waiting args s.cancels
  | .set _ bits, phase => phase = .setting bits
  | .clear _ bits, phase => phase = .clearing bits
  | .cancel _ setPattern, phase => phase = .canceling setPattern
  | .wake t, phase | .timeOut t, phase => phase = s.threads t
  | .attempt t, phase => phase = s.threads t ∨
      ∃ setPattern, s.threads t = .canceling setPattern ∧ s.status = .set ∧
        phase = .draining setPattern s.waitingThreads

/-- What a step does: its thread returns from the call that it makes or stays in it, and no other
thread is moved. -/
structure StepSpec (s : System ι) (op : Op ι) (s' : System ι) (returned : Option (ι × Return)) :
    Prop where
  returns : ∀ t result, returned = some (t, result) →
    t = op.thread ∧ s'.threads t = .idle ∧ ReturnSpec s op s' t result
  stays : returned = none → s.StaysIn op (s'.threads op.thread)
  others : ∀ t, t ≠ op.thread → s'.threads t = s.threads t

theorem StepSpec.returned [DecidableEq ι] {s s' : System ι} {op : Op ι} {result : Return}
    (hthreads : s'.threads = Function.update s.threads op.thread .idle)
    (hspec : ReturnSpec s op s' op.thread result) :
    StepSpec s op s' (some (op.thread, result)) where
  returns t result' heq := by
    cases heq
    exact ⟨rfl, by rw [hthreads, Function.update_self], hspec⟩
  stays := nofun
  others t hne := by rw [hthreads, Function.update_of_ne hne]

theorem StepSpec.stayed [DecidableEq ι] {s s' : System ι} {op : Op ι} {phase : Phase}
    (hthreads : s'.threads = Function.update s.threads op.thread phase)
    (hstays : s.StaysIn op phase) : StepSpec s op s' none where
  returns := nofun
  stays _ := by rwa [hthreads, Function.update_self]
  others t hne := by rw [hthreads, Function.update_of_ne hne]

theorem StepSpec.unchanged {s : System ι} {op : Op ι}
    (hstays : s.StaysIn op (s.threads op.thread)) :
    StepSpec s op s none := ⟨nofun, fun _ => hstays, fun _ _ => rfl⟩

theorem inv_create [Fintype ι] (threadMode : ThreadMode) (bits : UInt64) :
    Inv (System.create threadMode bits : System ι) where
  count := by simp [System.create, System.inside, Phase.isWaiting]
  single _ := show (0 : ℤ) ≤ 1 by decide
  replay_eq := rfl
  not_deleted := nofun
  cancel := ⟨nofun, nofun, nofun, nofun⟩

variable {s' : System ι} {phase : Phase} {p : UInt64}

/-- One thread moves to another phase, and the rest of the state follows. -/
theorem Inv.update [DecidableEq ι] [Fintype ι] (h : Inv s) (t : ι) (phase : Phase)
    (hthreads : s'.threads = Function.update s.threads t phase)
    (hcount : s'.waitingThreads + (s.threads t).isWaiting.toNat =
      s.waitingThreads + phase.isWaiting.toNat)
    (hsingle : s'.threadMode = .single → s'.waitingThreads ≤ 1)
    (hreplay : s'.bits = replay s'.initial s'.log) (hdeleted : s'.status ≠ .deleted)
    (hcancel : CancelInv s') : Inv s' where
  count := by
    have hcard := s.card_inside_setThread t phase
    have hinside : s'.inside = (s.setThread t phase).inside := by
      ext i
      rw [System.mem_inside, System.mem_inside, hthreads]
      rfl
    rw [hinside]
    have := h.count
    omega
  single := hsingle
  replay_eq := hreplay
  not_deleted := hdeleted
  cancel := hcancel

/-- A thread that is in some phase after another one moved was in it before, or is that one. -/
theorem update_phase [DecidableEq ι] {threads : ι → Phase} {other : Phase} {t' : ι}
    (h : Function.update threads t phase t' = other) :
    (t' = t ∧ phase = other) ∨ (t' ≠ t ∧ threads t' = other) := by
  by_cases heq : t' = t
  · subst heq
    rw [Function.update_self] at h
    exact .inl ⟨rfl, h⟩
  · rw [Function.update_of_ne heq] at h
    exact .inr ⟨heq, h⟩

theorem Inv.not_draining [Fintype ι] (h : Inv s) (hset : s.status = .set) (t : ι) (p : UInt64)
    (n : ℤ) :
    s.threads t ≠ .draining p n := by
  intro hdraining
  have := (h.cancel.draining t p n hdraining).1
  rw [hset] at this
  cases this

variable [DecidableEq ι] [Fintype ι]

theorem Inv.cancelInv_set (h : Inv s) (t : ι) (phase : Phase)
    (hthreads : s'.threads = Function.update s.threads t phase) (hset : s.status = .set)
    (hset' : s'.status = .set) (hcancels : s'.cancels = s.cancels)
    (hdrain : ∀ p n, phase ≠ .draining p n)
    (hsince : ∀ args since, phase = .waiting args since → since ≤ s.cancels) : CancelInv s' where
  draining t' p n hdraining := by
    rw [hthreads] at hdraining
    obtain ⟨-, rfl⟩ | ⟨-, hold⟩ := update_phase hdraining
    · exact absurd rfl (hdrain p n)
    · exact absurd hold (h.not_draining hset t' p n)
  unique t' _ p _ n _ hdraining _ := by
    rw [hthreads] at hdraining
    obtain ⟨-, rfl⟩ | ⟨-, hold⟩ := update_phase hdraining
    · exact absurd rfl (hdrain p n)
    · exact absurd hold (h.not_draining hset t' p n)
  since_le t' args since hwaiting := by
    rw [hthreads] at hwaiting
    rw [hcancels]
    obtain ⟨-, rfl⟩ | ⟨-, hold⟩ := update_phase hwaiting
    · exact hsince args since rfl
    · exact h.cancel.since_le t' args since hold
  since_lt hcanceled := by
    rw [hset'] at hcanceled
    cases hcanceled

theorem Inv.finishWait (h : Inv s) {since : ℕ} (hwaiting : s.threads t = .waiting args since)
    (hfunc : s.waitFunc args = true) {op : Op ι} (hop : op = .wake t ∨ op = .timeOut t) :
    Inv (s.finishWait t args).1 ∧
      StepSpec s op (s.finishWait t args).1 (s.finishWait t args).2 := by
  have hthread : op.thread = t := by rcases hop with rfl | rfl <;> rfl
  have hone : (s.threads t).isWaiting = true := by rw [hwaiting]; rfl
  unfold System.finishWait
  simp only [System.setThread]
  cases hstatus : s.status with
  | deleted => exact absurd hstatus h.not_deleted
  | set =>
    have hsatisfied : args.satisfied s.bits = true := by
      simpa [System.waitFunc, hstatus] using hfunc
    refine ⟨?_, hthread ▸ .returned (by rw [hthread]; rfl)
      ⟨args, .inr ⟨hthread.symm ▸ hop, since, hthread.symm ▸ hwaiting⟩, hstatus, hsatisfied, rfl,
        rfl, rfl⟩⟩
    refine h.update t .idle rfl ?_ (fun hsingle => ?_) ?_ nofun
      (h.cancelInv_set t .idle rfl hstatus rfl rfl nofun nofun)
    · rw [hone]
      simp [System.change, Phase.isWaiting]
    · have := h.single hsingle
      simp only [System.change]
      omega
    · simp only [System.change, replay]
      rw [← h.replay_eq]
  | canceled =>
    refine ⟨?_, hthread ▸ .returned (by rw [hthread]) ⟨hstatus, rfl, args, since,
      hthread.symm ▸ hwaiting, h.cancel.since_lt hstatus t args since hwaiting⟩⟩
    refine h.update t .idle rfl ?_ (fun hsingle => ?_) h.replay_eq nofun ?_
    · rw [hone]
      simp [Phase.isWaiting]
    · have := h.single hsingle
      simp only
      omega
    · refine ⟨fun t' p n hdraining => ?_, fun t' t'' p p' n n' h' h'' => ?_,
        fun t' args' since' hother => ?_, fun _ t' args' since' hother => ?_⟩
      · obtain ⟨-, hidle⟩ | ⟨-, hold⟩ := update_phase hdraining
        · cases hidle
        · obtain ⟨-, hbits, hsum⟩ := h.cancel.draining t' p n hold
          exact ⟨rfl, hbits, by simp only; omega⟩
      · obtain ⟨-, hidle⟩ | ⟨-, hold⟩ := update_phase h'
        · cases hidle
        obtain ⟨-, hidle⟩ | ⟨-, hold'⟩ := update_phase h''
        · cases hidle
        exact h.cancel.unique t' t'' p p' n n' hold hold'
      · obtain ⟨-, hidle⟩ | ⟨-, hold⟩ := update_phase hother
        · cases hidle
        · exact h.cancel.since_le t' args' since' hold
      · obtain ⟨-, hidle⟩ | ⟨-, hold⟩ := update_phase hother
        · cases hidle
        · exact h.cancel.since_lt hstatus t' args' since' hold

theorem Inv.enterWait (h : Inv s) (args : WaitArgs) (hidle : s.threads t = .idle)
    (hset : s.status = .set) (hfree : ¬ (s.threadMode = .single ∧ 0 < s.waitingThreads)) :
    Inv ({ s with waitingThreads := s.waitingThreads + 1 }.setThread t
      (.waiting args s.cancels)) := by
  refine h.update t (.waiting args s.cancels) rfl ?_ (fun hsingle => ?_) h.replay_eq
    h.not_deleted (h.cancelInv_set t _ rfl hset hset rfl nofun ?_)
  · rw [hidle]
    simp [System.setThread, Phase.isWaiting]
  · have := h.count
    by_contra hmore
    refine hfree ⟨hsingle, ?_⟩
    simp only [System.setThread] at hmore
    omega
  · intro args' since heq
    cases heq
    exact le_rfl

theorem Inv.beginWait (h : Inv s) (hidle : s.threads t = .idle)
    (hquiet : s.status = .canceled → s.threadMode = .single ∧ 0 < s.waitingThreads) :
    Inv (s.beginWait t args).1 ∧
      StepSpec s (.wait t args) (s.beginWait t args).1 (s.beginWait t args).2 := by
  unfold System.beginWait
  by_cases hbusy : s.threadMode = .single ∧ 0 < s.waitingThreads
  · rw [if_pos hbusy]
    refine ⟨h, .returned ?_ ⟨rfl, args, .inl rfl, .inl ⟨rfl, hbusy⟩⟩⟩
    change s.threads = Function.update s.threads t .idle
    rw [← hidle, Function.update_eq_self]
  · rw [if_neg hbusy]
    have hset : s.status = .set := by
      cases hstatus : s.status with
      | set => rfl
      | canceled => exact absurd (hquiet hstatus) hbusy
      | deleted => exact absurd hstatus h.not_deleted
    have hentered := h.enterWait args hidle hset hbusy
    by_cases hfunc : System.waitFunc { s with waitingThreads := s.waitingThreads + 1 } args = true
    · simp only [hfunc, if_true]
      have hwaiting : ({ s with waitingThreads := s.waitingThreads + 1 }.setThread t
          (.waiting args s.cancels)).threads t = .waiting args s.cancels :=
        Function.update_self _ _ _
      have hinv := (hentered.finishWait hwaiting hfunc (.inl rfl)).1
      have hsame : System.finishWait ({ s with waitingThreads := s.waitingThreads + 1 }.setThread t
          (.waiting args s.cancels)) t args =
          System.finishWait { s with waitingThreads := s.waitingThreads + 1 } t args := by
        simp [System.finishWait, System.setThread, System.change]
      rw [hsame] at hinv
      refine ⟨hinv, ?_⟩
      simp only [System.finishWait, System.setThread, hset]
      have hsatisfied : args.satisfied s.bits = true := by
        simpa [System.waitFunc, hset] using hfunc
      exact .returned rfl ⟨args, .inl rfl, hset, hsatisfied, rfl, rfl, rfl⟩
    · simp only [hfunc, Bool.false_eq_true, if_false]
      exact ⟨hentered, .stayed rfl ⟨by simpa [System.waitFunc, hset] using hfunc, rfl⟩⟩

theorem Inv.wake (h : Inv s) :
    Inv (s.wake t).1 ∧ StepSpec s (.wake t) (s.wake t).1 (s.wake t).2 := by
  unfold System.wake
  cases hphase : s.threads t with
  | waiting args since =>
    simp only
    by_cases hfunc : s.waitFunc args = true
    · rw [if_pos hfunc]
      exact h.finishWait hphase hfunc (.inl rfl)
    · rw [if_neg hfunc]
      exact ⟨h, .unchanged rfl⟩
  | idle | setting bits | clearing bits | canceling p | draining p n => exact ⟨h, .unchanged rfl⟩

theorem Inv.timeOut (h : Inv s) :
    Inv (s.timeOut t).1 ∧ StepSpec s (.timeOut t) (s.timeOut t).1 (s.timeOut t).2 := by
  unfold System.timeOut
  cases hphase : s.threads t with
  | waiting args since =>
    simp only
    by_cases htimed : args.timed = true
    · rw [if_neg (by simpa using htimed)]
      by_cases hfunc : s.waitFunc args = true
      · rw [if_pos hfunc]
        exact h.finishWait hphase hfunc (.inr rfl)
      · rw [if_neg hfunc]
        -- the condition does not hold, so the flag is not being cancelled
        have hset : s.status = .set := by
          cases hstatus : s.status with
          | set => rfl
          | canceled => simp [System.waitFunc, hstatus] at hfunc
          | deleted => exact absurd hstatus h.not_deleted
        refine ⟨?_, ?_⟩
        · refine h.update t .idle rfl ?_ (fun hsingle => ?_) h.replay_eq h.not_deleted
            (h.cancelInv_set t .idle rfl hset hset rfl nofun nofun)
          · rw [hphase]
            simp [Phase.isWaiting]
          · have := h.single hsingle
            simp only
            omega
        · have hunsatisfied : args.satisfied s.bits = false := by
            simpa [System.waitFunc, hset] using hfunc
          cases hpoll : args.poll <;>
            exact .returned rfl ⟨rfl, args, .inr ⟨.inr rfl, since, hphase⟩,
              .inr ⟨by rw [hpoll], htimed, hunsatisfied⟩⟩
    · rw [if_pos (by simpa using htimed)]
      exact ⟨h, .unchanged rfl⟩
  | idle | setting bits | clearing bits | canceling p | draining p n => exact ⟨h, .unchanged rfl⟩

theorem Inv.begin (h : Inv s) (hidle : s.threads t = .idle)
    (hwaiting : phase.isWaiting = false) (hdrain : ∀ p n, phase ≠ .draining p n) :
    Inv (s.setThread t phase) := by
  refine h.update t phase rfl ?_ h.single h.replay_eq h.not_deleted ?_
  · rw [hidle, hwaiting]
    rfl
  · refine ⟨fun t' p n hdraining => ?_, fun t' t'' p p' n n' h' h'' => ?_,
      fun t' args since hother => ?_, fun hcanceled t' args since hother => ?_⟩
    · obtain ⟨-, rfl⟩ | ⟨-, hold⟩ := update_phase hdraining
      · exact absurd rfl (hdrain p n)
      · exact h.cancel.draining t' p n hold
    · obtain ⟨-, rfl⟩ | ⟨-, hold⟩ := update_phase h'
      · exact absurd rfl (hdrain p n)
      obtain ⟨-, rfl⟩ | ⟨-, hold'⟩ := update_phase h''
      · exact absurd rfl (hdrain p' n')
      exact h.cancel.unique t' t'' p p' n n' hold hold'
    · obtain ⟨-, rfl⟩ | ⟨-, hold⟩ := update_phase hother
      · cases hwaiting
      · exact h.cancel.since_le t' args since hold
    · obtain ⟨-, rfl⟩ | ⟨-, hold⟩ := update_phase hother
      · cases hwaiting
      · exact h.cancel.since_lt hcanceled t' args since hold

/-- A change of the bits by a thread that leaves `Set` or `Clear`. -/
theorem Inv.change (h : Inv s) (event : Event) (hset : s.status = .set)
    (hwaiting : (s.threads t).isWaiting = false) : Inv ((s.setThread t .idle).change event) := by
  refine h.update t .idle rfl ?_ h.single ?_ h.not_deleted
    (h.cancelInv_set t .idle rfl hset hset rfl nofun nofun)
  · rw [hwaiting]
    rfl
  · simp only [System.change, System.setThread, replay]
    rw [← h.replay_eq]

theorem Inv.drain (h : Inv s) {n : ℤ} (hphase : s.threads t = .draining p n) :
    Inv (s.drain t p n).1 ∧
      ((s.drain t p n).2 = none ∧ (s.drain t p n).1.threads = s.threads ∨
        (s.drain t p n).2 = some (t, .cancel p n) ∧
          (s.drain t p n).1.threads = Function.update s.threads t .idle ∧
          (s.drain t p n).1.bits = p ∧ (s.drain t p n).1.status = .set ∧
          (s.drain t p n).1.canceled = n) := by
  unfold System.drain
  by_cases hmore : 0 < s.waitingThreads
  · rw [if_pos hmore]
    have hsame : s.setThread t (.draining p n) = s := by
      simp [System.setThread, ← hphase]
    rw [hsame]
    exact ⟨h, .inl ⟨rfl, rfl⟩⟩
  · rw [if_neg hmore]
    obtain ⟨-, hbits, hsum⟩ := h.cancel.draining t p n hphase
    have hcount := h.count
    refine ⟨?_, .inr ⟨rfl, rfl, hbits, rfl, by simp only [System.setThread]; omega⟩⟩
    refine h.update t .idle rfl ?_ h.single h.replay_eq nofun ?_
    · rw [hphase]
      rfl
    · have hnone : ∀ t' p' n', Function.update s.threads t .idle t' ≠ .draining p' n' := by
        intro t' p' n' hdraining
        obtain ⟨-, hidle⟩ | ⟨hne, hold⟩ := update_phase hdraining
        · cases hidle
        · exact hne (h.cancel.unique t' t p' p n' n hold hphase)
      refine ⟨fun t' p' n' hdraining => absurd hdraining (hnone t' p' n'),
        fun t' t'' p' _ n' _ h' _ => absurd h' (hnone t' p' n'), fun t' args since hother => ?_,
        nofun⟩
      obtain ⟨-, hidle⟩ | ⟨-, hold⟩ := update_phase hother
      · cases hidle
      · exact h.cancel.since_le t' args since hold

/-- A `Cancel` sets its pattern and takes down how many threads wait. -/
theorem Inv.publish (h : Inv s) (hphase : s.threads t = .canceling p)
    (hset : s.status = .set) : Inv ({ s.change (.cancel p) with
      status := .canceled, cancels := s.cancels + 1, canceled := 0 }.setThread t
        (.draining p s.waitingThreads)) := by
  refine h.update t (.draining p s.waitingThreads) rfl ?_ h.single ?_ nofun ?_
  · rw [hphase]
    rfl
  · simp only [System.change, System.setThread, replay]
    rw [← h.replay_eq]
  · refine ⟨fun t' p' n' hdraining => ?_, fun t' t'' p' p'' n' n'' h' h'' => ?_,
      fun t' args since hother => ?_, fun _ t' args since hother => ?_⟩
    · obtain ⟨-, hnew⟩ | ⟨-, hold⟩ := update_phase hdraining
      · cases hnew
        exact ⟨rfl, rfl, Int.zero_add _⟩
      · exact absurd hold (h.not_draining hset t' p' n')
    · obtain ⟨rfl, -⟩ | ⟨-, hold⟩ := update_phase h'
      · obtain ⟨rfl, -⟩ | ⟨-, hold⟩ := update_phase h''
        · rfl
        · exact absurd hold (h.not_draining hset t'' p'' n'')
      · exact absurd hold (h.not_draining hset t' p' n')
    · obtain ⟨-, hnew⟩ | ⟨-, hold⟩ := update_phase hother
      · cases hnew
      · exact (h.cancel.since_le t' args since hold).trans (Nat.le_succ _)
    · obtain ⟨-, hnew⟩ | ⟨-, hold⟩ := update_phase hother
      · cases hnew
      · exact Nat.lt_succ_of_le (h.cancel.since_le t' args since hold)

theorem Inv.attempt (h : Inv s) :
    Inv (s.attempt t).1 ∧ StepSpec s (.attempt t) (s.attempt t).1 (s.attempt t).2 := by
  unfold System.attempt
  cases hphase : s.threads t with
  | idle | waiting args since => exact ⟨h, .unchanged (.inl rfl)⟩
  | setting bits =>
    simp only
    split_ifs with hset
    · exact ⟨h.change (.set bits) hset (by rw [hphase]; rfl),
        .returned rfl ⟨rfl, bits, hphase, rfl⟩⟩
    · exact ⟨h, .unchanged (.inl rfl)⟩
  | clearing bits =>
    simp only
    split_ifs with hset
    · exact ⟨h.change (.clear bits) hset (by rw [hphase]; rfl),
        .returned rfl ⟨rfl, bits, hphase, rfl⟩⟩
    · exact ⟨h, .unchanged (.inl rfl)⟩
  | canceling p =>
    simp only
    split_ifs with hset
    · obtain ⟨hinv, hreturn⟩ := (h.publish hphase hset).drain (t := t)
        (Function.update_self _ _ _)
      have hsame : System.drain ({ s.change (.cancel p) with
            status := .canceled, cancels := s.cancels + 1, canceled := 0 }.setThread t
              (.draining p s.waitingThreads)) t p s.waitingThreads =
          System.drain { s.change (.cancel p) with
            status := .canceled, cancels := s.cancels + 1, canceled := 0 } t p
              s.waitingThreads := by
        simp [System.drain, System.setThread]
      rw [hsame] at hinv hreturn
      refine ⟨hinv, ?_⟩
      obtain ⟨hnone, hthreads⟩ | ⟨hsome, hthreads, hdone⟩ := hreturn
      · rw [hnone]
        exact .stayed hthreads (.inr ⟨p, hphase, hset, rfl⟩)
      · rw [hsome]
        exact @StepSpec.returned _ _ _ _ (.attempt t) _ (hthreads.trans (Function.update_idem ..))
          ⟨rfl, .inl ⟨hphase, rfl⟩, hdone⟩
    · exact ⟨h, .unchanged (.inl rfl)⟩
  | draining p n =>
    obtain ⟨hinv, hreturn⟩ := h.drain hphase
    refine ⟨hinv, ?_⟩
    obtain ⟨hnone, hthreads⟩ | ⟨hsome, hthreads, hdone⟩ := hreturn
    · simp only [hnone]
      exact .stayed (hthreads.trans (Function.update_eq_self t s.threads).symm) (.inl rfl)
    · simp only [hsome]
      exact @StepSpec.returned _ _ _ _ (.attempt t) _ hthreads ⟨rfl, .inr hphase, hdone⟩

theorem Inv.step (h : Inv s) {op : Op ι} (henabled : s.Enabled op) (hquiet : s.NotDuringCancel op) :
    Inv (s.step op).1 ∧ StepSpec s op (s.step op).1 (s.step op).2 := by
  cases op with
  | wait t args => exact h.beginWait henabled.1 hquiet
  | set t bits | clear t bits | cancel t setPattern =>
    exact ⟨h.begin henabled rfl nofun, .stayed rfl rfl⟩
  | wake t => exact h.wake
  | timeOut t => exact h.timeOut
  | attempt t => exact h.attempt

theorem Reachable.inv (h : Reachable s) : Inv s := by
  induction h with
  | create threadMode bits => exact inv_create threadMode bits
  | step _ henabled hquiet ih => exact (ih.step henabled hquiet).1

/-- In every run in which no thread begins to wait during a `Cancel`: the counter is the number of
threads inside `Wait`, at most one in single mode; the bits are those of the changes made so far,
in their order; and each step leaves its thread inside the call that it makes, or returns from it
with what the call has to do. -/
theorem Reachable.linearizable (h : Reachable s) :
    s.waitingThreads = s.inside.card ∧ (s.threadMode = .single → s.waitingThreads ≤ 1) ∧
      s.bits = replay s.initial s.log ∧
      ∀ op, s.Enabled op → s.NotDuringCancel op → StepSpec s op (s.step op).1 (s.step op).2 :=
  ⟨h.inv.count, h.inv.single, h.inv.replay_eq,
    fun _ henabled hquiet => (h.inv.step henabled hquiet).2⟩

/-- A wait for the first bit. -/
def firstBit : WaitArgs := ⟨1, .and, .all, false, false⟩

/-- A thread waits for the first bit, and another one is about to set it. -/
def blockedWait : System (Fin 3) :=
  [Op.wait 0 firstBit, .set 1 3].foldl (fun s op => (s.step op).1) (System.create .multi 2)

theorem linearizable_wait : blockedWait.waitingThreads = 1 ∧
    (blockedWait.step (.attempt 1)).2 = some (1, .set) ∧
    ((blockedWait.step (.attempt 1)).1.step (.wake 0)).2 = some (0, .wait .ok (some 3)) ∧
    StepSpec (blockedWait.step (.attempt 1)).1 (.wake 0)
      ((blockedWait.step (.attempt 1)).1.step (.wake 0)).1
      ((blockedWait.step (.attempt 1)).1.step (.wake 0)).2 := by
  have hset : Reachable (blockedWait.step (.attempt 1)).1 :=
    @Reachable.step _ _ _ (.attempt 1) (@Reachable.step _ _ _ (.set 1 3) (@Reachable.step _ _ _
      (.wait 0 firstBit) (.create .multi 2) ⟨rfl, nofun⟩ nofun) rfl trivial) trivial trivial
  obtain ⟨-, -, -, hstep⟩ := Reachable.linearizable hset
  exact ⟨rfl, rfl, rfl, hstep (.wake 0) trivial trivial⟩

/-- The first thread waits, and the second one cancels it. -/
def canceledWait : System (Fin 3) :=
  [Op.wait 0 firstBit, .cancel 1 0, .attempt 1].foldl (fun s op => (s.step op).1)
    (System.create .multi 0)

/-- The third thread begins to wait before the second has looked again, and then the first one
leaves. -/
def lateWait : System (Fin 3) :=
  [Op.wait 2 firstBit, .wake 0].foldl (fun s op => (s.step op).1) canceledWait

/-- The late thread is cancelled at once, and the `Cancel` that reports one thread has cancelled
two. -/
theorem cancel_sweeps_lateWait :
    (canceledWait.step (.wait 2 firstBit)).2 = some (2, .wait .canceled (some 0)) ∧
      (lateWait.step (.attempt 1)).2 = some (1, .cancel 0 1) ∧
      (lateWait.step (.attempt 1)).1.canceled = 2 := by
  decide

end PS4Droid.Threads.EventFlag
