import PS4Droid.Threads.TimedReturns

/-!
# Runs with timed waits

Every step of any thread keeps list, flags and notes in agreement. In every state of every run the
recorded returns are right exactly if each signaled wait came back within its timeout and each
canceled or deleted one after it.
-/

namespace PS4Droid.Threads

variable {ι : Type*} [DecidableEq ι]

namespace TimedSystem

variable {s s' : TimedSystem ι} {t : ι}

theorem Inv.begin (hinv : s.Inv) (ht : s.sys.threads t = none) (timeout : Option UInt32) :
    (TimedSystem.begin t timeout s).Inv := by
  have hne : ∀ u w, s.sys.threads u = some w → u ≠ t := by
    rintro u w hw rfl
    rw [ht] at hw
    cases hw
  refine ⟨hinv.nodup, hinv.listed, fun u w hw => ?_, hinv.released, fun u w hw => ?_, fun u => ?_⟩
  · dsimp only [TimedSystem.begin] at hw ⊢
    rw [Function.update_of_ne (hne u w hw)]
    exact hinv.noted u w hw
  · dsimp only [TimedSystem.begin] at hw ⊢
    rw [Function.update_of_ne (hne u w hw)]
    exact hinv.expired u w hw
  · dsimp only [TimedSystem.begin]
    by_cases hu : u = t
    · subst hu
      rw [Function.update_self]
      exact UInt32.toNat_lt _
    · rw [Function.update_of_ne hu]
      exact hinv.small u

omit [DecidableEq ι] in
/-- The first part of `Wait` queues the thread or leaves list and threads alone. -/
theorem wait_cases [DecidableEq ι] (s : System ι) (t : ι) (canBlock : Bool) (needCount : ℤ)
    (prio : ℕ)
    (limit : Option ℕ) : ((s.wait t canBlock needCount prio limit).1.sem.waitList = s.sem.waitList ∧
      (s.wait t canBlock needCount prio limit).1.threads = s.threads) ∨
    (canBlock = true ∧ ∃ w : WaitingThread, w.Pending ∧ w.sem = false ∧
      (s.wait t canBlock needCount prio limit).1.sem.waitList.Perm (t :: s.sem.waitList) ∧
      (s.wait t canBlock needCount prio limit).1.threads =
        Function.update s.threads t (some ⟨w, .parked⟩)) := by
  unfold System.wait
  by_cases htake : needCount ≤ s.sem.tokenCount
  · rw [if_pos htake]
    exact .inl ⟨rfl, rfl⟩
  rw [if_neg htake]
  by_cases hblock : (!canBlock) = true
  · rw [if_pos hblock]
    exact .inl ⟨rfl, rfl⟩
  rw [if_neg hblock]
  by_cases hzero : limit = some 0
  · rw [if_pos hzero]
    exact .inl ⟨rfl, rfl⟩
  rw [if_neg hzero]
  exact .inr ⟨by simpa using hblock, _, ⟨rfl, rfl, rfl⟩, rfl, perm_addWaiter _ _ _ _ _, rfl⟩

theorem Inv.wait (hinv : s.Inv) (ht : s.sys.threads t = none) (canBlock : Bool) (needCount : ℤ)
    (prio : ℕ) (limit : Option ℕ) (timeout : Option UInt32) : (TimedSystem.begin t timeout { s with
      sys := (s.sys.wait t canBlock needCount prio limit).1
      remover := s.noteRemoved none (s.sys.wait t canBlock needCount prio limit).1 }).Inv := by
  rcases wait_cases s.sys t canBlock needCount prio limit with
    ⟨hlist, hthreads⟩ | ⟨-, w, hpending, hsem, hperm, hthreads⟩
  · exact (hinv.idle hlist hthreads none).begin (hthreads ▸ ht) timeout
  · exact hinv.queue ht hperm hthreads hpending hsem timeout

theorem Inv.poll (hinv : s.Inv) (needCount : ℤ) (prio : ℕ) (limit : Option ℕ) : ({ s with
      sys := (s.sys.wait t false needCount prio limit).1
      remover := s.noteRemoved none (s.sys.wait t false needCount prio limit).1 } :
        TimedSystem ι).Inv := by
  rcases wait_cases s.sys t false needCount prio limit with ⟨hlist, hthreads⟩ | ⟨hblock, -⟩
  · exact hinv.idle hlist hthreads none
  · cases hblock

theorem mem_woken_iff (hnodup : s.sys.sem.waitList.Nodup) (token : ℤ) (u : ι) :
    u ∈ (System.wakeWaiters s.sys.needCount s.sys.sem.waitList token).2.2 ↔
      u ∈ s.sys.sem.waitList ∧
        u ∉ (System.wakeWaiters s.sys.needCount s.sys.sem.waitList token).1 := by
  have hsub := (wakeWaiters_sublist s.sys.needCount s.sys.sem.waitList token).2
  constructor
  · intro hu
    exact ⟨hsub.subset hu, fun h => (mem_wakeWaiters_iff hnodup token u (hsub.subset hu)).mp h hu⟩
  · rintro ⟨hu, hgone⟩
    by_contra hstay
    exact hgone ((mem_wakeWaiters_iff hnodup token u hu).mpr hstay)

variable {signalCount : ℤ} {r : System ι × Bool} {elapsed : ℕ}

omit [DecidableEq ι] in
/-- A signal is rejected and changes nothing, or wakes up some waiters. -/
theorem signal_cases [DecidableEq ι] {s : System ι} (h : s.signal signalCount = some r) :
    r.1 = s ∨ ∃ woken, (r.1.sem.waitList, r.1.sem.tokenCount, woken) =
        System.wakeWaiters s.needCount s.sem.waitList (wrap32 (s.sem.tokenCount + signalCount)) ∧
      r.1.threads = s.mark woken fun w => { w with wasSignaled := true, sem := true } := by
  unfold System.signal at h
  dsimp only at h
  split_ifs at h
  · cases h
    exact .inl rfl
  · cases h
    exact .inr ⟨_, rfl, rfl⟩

theorem Inv.signal (hinv : s.Inv) (h : s.sys.signal signalCount = some r) :
    ({ s with sys := r.1, remover := s.noteRemoved (some .signal) r.1 } : TimedSystem ι).Inv := by
  rcases signal_cases h with hsame | ⟨woken, hwoken, hthreads⟩
  · exact hinv.idle (by rw [hsame]) (by rw [hsame]) _
  · have hmem := mem_woken_iff hinv.nodup (wrap32 (s.sys.sem.tokenCount + signalCount))
    have hsub := (wakeWaiters_sublist s.sys.needCount s.sys.sem.waitList
      (wrap32 (s.sys.sem.tokenCount + signalCount))).1
    rw [← hwoken] at hmem hsub
    refine hinv.remove hsub hmem hthreads fun w _ => ?_
    simp [WaitingThread.removedBy]

theorem Inv.cancel (hinv : s.Inv) (setCount : ℤ) : ({ s with
      sys := (s.sys.cancel setCount).1
      remover := s.noteRemoved (some .cancel) (s.sys.cancel setCount).1 } : TimedSystem ι).Inv := by
  have hthreads : (s.sys.cancel setCount).1.threads =
      s.sys.mark s.sys.sem.waitList fun w => { w with wasCanceled := true, sem := true } := rfl
  refine hinv.remove (List.nil_sublist _) (fun u => ?_) hthreads fun w hw => ?_
  · simp [System.cancel]
  · simp [WaitingThread.removedBy, hw.1, hw.2.1]

theorem Inv.delete (hinv : s.Inv) :
    ({ s with sys := s.sys.delete, remover := s.noteRemoved (some .delete) s.sys.delete } :
      TimedSystem ι).Inv := by
  have hthreads : s.sys.delete.threads =
      s.sys.mark s.sys.sem.waitList fun w => { w with wasDeleted := true, sem := true } := rfl
  refine hinv.remove (List.nil_sublist _) (fun u => ?_) hthreads fun w hw => ?_
  · simp [System.delete]
  · simp [WaitingThread.removedBy, hw.1]

theorem Inv.call (hinv : s.Inv) {c : TimedCall} (h : step s (.call t c) = .ok s') : s'.Inv := by
  cases ht : s.sys.threads t with
  | some w => simp [step, ht] at h
  | none =>
    cases c with
    | wait needCount prio timeout =>
      simp only [step, ht, TimedCall.run, Call.run, Except.ok.injEq] at h
      subst h
      exact hinv.wait ht true _ prio _ timeout
    | poll needCount =>
      simp only [step, ht, TimedCall.run, Call.run, Except.ok.injEq] at h
      subst h
      exact hinv.poll _ 0 none
    | signal signalCount =>
      simp only [step, ht, TimedCall.run, Call.run] at h
      cases hsignal : s.sys.signal signalCount.toInt with
      | none => simp [hsignal] at h
      | some r =>
        simp only [hsignal, Except.ok.injEq] at h
        subst h
        exact hinv.signal hsignal
    | cancel setCount =>
      simp only [step, ht, TimedCall.run, Call.run, Except.ok.injEq] at h
      subst h
      exact hinv.cancel _
    | delete =>
      simp only [step, ht, TimedCall.run, Except.ok.injEq] at h
      subst h
      exact hinv.delete

theorem Inv.acquire (hinv : s.Inv) (h : step s (.acquire t elapsed) = .ok s') : s'.Inv := by
  simp only [step] at h
  cases hstep : Threads.step s.sys (.acquire t) with
  | error fault => simp [hstep] at h
  | ok sys =>
    simp only [hstep, Except.ok.injEq] at h
    subst h
    unfold Threads.step at hstep
    dsimp only at hstep
    split at hstep
    · rename_i w hw
      split_ifs at hstep with hsem
      cases hstep
      exact hinv.wake hw rfl (fun h => absurd h (by simp)) fun hp =>
        absurd hp (hinv.released t _ hw hsem)
    · cases hstep

theorem Inv.expire (hinv : s.Inv) (h : step s (.expire t elapsed) = .ok s') : s'.Inv := by
  simp only [step] at h
  split_ifs at h with htime
  cases hstep : Threads.step s.sys (.expire t) with
  | error fault => simp [hstep] at h
  | ok sys =>
    simp only [hstep, Except.ok.injEq] at h
    subst h
    unfold Threads.step at hstep
    dsimp only at hstep
    split at hstep
    · rename_i w hw
      split_ifs at hstep
      cases hstep
      exact hinv.wake hw rfl id fun _ => Nat.not_lt.mp htime
    · cases hstep

end TimedSystem

/-! ### Returns -/

/-- The result names the remover, who was on the list to the end has erased itself once, and what is
left of the timeout is written back. -/
structure Return.Right (r : Return) : Prop where
  ok : r.result = .ok ↔ r.remover = some .signal
  timedOut : r.result = .timedOut ↔ r.remover = none
  canceled : r.result = .canceled ↔ r.remover = some .cancel
  access : r.result = .access ↔ r.remover = some .delete
  erased : r.erased = if r.result = .timedOut then 1 else 0
  remaining : r.remaining = r.timeout - r.elapsed
  le : r.remaining ≤ r.timeout

/-- A signal came while time was left (or a whole turn of the counter late), any other removal when
none was. -/
def Return.OnTime (r : Return) : Prop :=
  (r.remover = some .signal → r.elapsed ≤ r.timeout ∨ (r.elapsed - r.timeout) % 2 ^ 32 = 0) ∧
    (r.remover = some .cancel ∨ r.remover = some .delete → r.timeout ≤ r.elapsed)

/-- What every return is, on time or not. -/
structure Return.Noted (r : Return) : Prop where
  result : r.result = resultOf r.remover
  erased : r.erased = if r.remover = none then 1 else 0
  remaining : r.remaining = if r.remover = some .signal then timeLeft r.timeout r.elapsed else 0
  small : r.timeout < 2 ^ 32
  late : r.remover = none → r.timeout ≤ r.elapsed

/-- The difference wraps for a signal that came after the timeout. -/
theorem timeLeft_eq_iff {timeout elapsed : ℕ} (hsmall : timeout < 2 ^ 32) :
    (timeLeft timeout elapsed = timeout - elapsed ∧ timeLeft timeout elapsed ≤ timeout) ↔
      elapsed ≤ timeout ∨ (elapsed - timeout) % 2 ^ 32 = 0 := by
  unfold timeLeft
  omega

theorem Return.Noted.right_iff {r : Return} (h : r.Noted) : r.Right ↔ r.OnTime := by
  obtain ⟨hresult, herased, hremaining, hsmall, hlate⟩ := h
  have hleft := @timeLeft_eq_iff r.timeout r.elapsed hsmall
  have htime : (r.remaining = r.timeout - r.elapsed ∧ r.remaining ≤ r.timeout) ↔ r.OnTime := by
    unfold OnTime
    rcases hremover : r.remover with _ | _ | _ | _ <;> rw [hremover] at hremaining hlate
    · have := hlate rfl
      simp only [reduceCtorEq, if_false] at hremaining
      rw [hremaining]
      refine iff_of_true (by omega) (by simp)
    · simp only [if_true] at hremaining
      rw [hremaining, hleft]
      simp
    · simp only [Option.some.injEq, reduceCtorEq, if_false] at hremaining
      rw [hremaining]
      simp only [Option.some.injEq, reduceCtorEq, false_implies, or_false, true_implies, true_and]
      omega
    · simp only [Option.some.injEq, reduceCtorEq, if_false] at hremaining
      rw [hremaining]
      simp only [Option.some.injEq, reduceCtorEq, false_implies, false_or, true_implies, true_and]
      omega
  constructor
  · exact fun h => htime.mp ⟨h.remaining, h.le⟩
  · intro h
    obtain ⟨hrem, hle⟩ := htime.mpr h
    have hout : r.result = .timedOut ↔ r.remover = none := by rw [hresult, resultOf_eq_timedOut]
    refine ⟨?_, hout, ?_, ?_, ?_, hrem, hle⟩
    · rw [hresult]
      rcases r.remover with _ | _ | _ | _ <;> simp [resultOf]
    · rw [hresult]
      rcases r.remover with _ | _ | _ | _ <;> simp [resultOf]
    · rw [hresult]
      rcases r.remover with _ | _ | _ | _ <;> simp [resultOf]
    · rw [herased]
      exact if_congr hout.symm rfl rfl

namespace TimedSystem

variable {s s' : TimedSystem ι} {t : ι}

theorem relock_noted (hinv : s.Inv) {w : WaitingThread}
    (hw : s.sys.threads t = some ⟨w, .relocking⟩) :
    Return.Noted
      { result := (s.sys.relock t w).2
        remover := s.remover t
        timeout := s.timeout t
        elapsed := s.elapsed t
        remaining := w.remaining (s.timeout t) (s.elapsed t)
        erased := s.sys.sem.waitList.length - (s.sys.relock t w).1.sem.waitList.length } := by
  have hnoted := hinv.noted t _ hw
  have hresult : (s.sys.relock t w).2 = resultOf (s.remover t) := by
    rw [hnoted]
    exact getResult_eq w
  refine ⟨hresult, ?_, ?_, hinv.small t, fun hnone => ?_⟩
  · dsimp only
    have herase : (s.sys.relock t w).1.sem.waitList =
        if w.getResult = .timedOut then s.sys.sem.waitList.erase t else s.sys.sem.waitList := rfl
    rw [herase, hnoted, getResult_eq]
    simp only [resultOf_eq_timedOut]
    split_ifs with hpending
    · have hmem := (hinv.listed t).mpr ⟨_, hw, (pending_iff w).mpr hpending⟩
      have hlength := List.length_pos_of_mem hmem
      rw [List.length_erase_of_mem hmem]
      omega
    · exact Nat.sub_self _
  · dsimp only
    rw [hnoted, WaitingThread.remaining, WaitingThread.removedBy]
    cases hsignaled : w.wasSignaled
    · cases w.wasDeleted <;> cases w.wasCanceled <;> simp
    · simp
  · exact hinv.expired t _ hw rfl ((pending_iff w).mpr (hnoted.symm.trans hnone))

/-- A step keeps the agreement, and a return that it records is noted. -/
theorem Inv.step (hinv : s.Inv) {a : TimedAction ι} (h : TimedSystem.step s a = .ok s') :
    s'.Inv ∧ ((∀ r ∈ s.returns, r.Noted) → ∀ r ∈ s'.returns, r.Noted) := by
  cases a with
  | call t c =>
    refine ⟨hinv.call h, fun hr => ?_⟩
    simp only [TimedSystem.step] at h
    split at h
    · cases h
    · split at h
      · cases h
      · split at h <;> cases h <;> exact hr
  | acquire t elapsed =>
    refine ⟨hinv.acquire h, fun hr => ?_⟩
    simp only [TimedSystem.step] at h
    split at h <;> cases h
    exact hr
  | expire t elapsed =>
    refine ⟨hinv.expire h, fun hr => ?_⟩
    simp only [TimedSystem.step] at h
    split_ifs at h
    split at h <;> cases h
    exact hr
  | relock t =>
    simp only [TimedSystem.step] at h
    split at h
    · rename_i w hw
      cases h
      refine ⟨hinv.relock hw _, fun hr r hmem => ?_⟩
      dsimp only at hmem
      split_ifs at hmem
      · rcases List.mem_cons.mp hmem with rfl | hmem
        · exact relock_noted hinv hw
        · exact hr r hmem
      · exact hr r hmem
    · cases h

end TimedSystem

namespace TimedReachable

variable {sem : OrbisSem ι} {s s' : TimedSystem ι}

theorem noted (hsem : sem.waitList = []) (h : TimedReachable sem s) :
    s.Inv ∧ ∀ r ∈ s.returns, r.Noted := by
  induction h with
  | create =>
      exact ⟨TimedSystem.inv_create sem hsem, fun r hr => absurd hr (by simp [TimedSystem.create])⟩
  | step _ hstep ih =>
    obtain ⟨hinv, hnoted⟩ := ih.1.step hstep
    exact ⟨hinv, hnoted ih.2⟩

end TimedReachable

/-! ### Tokens -/

omit [DecidableEq ι] in
theorem wakeWaiters_tokens (needCount : ι → ℤ) (waitList : List ι) (token : ℤ) :
    (System.wakeWaiters needCount waitList (wrap32 token)).2.1 =
      wrap32
        (token -
        ((System.wakeWaiters needCount waitList (wrap32 token)).2.2.map needCount).sum) := by
  induction waitList generalizing token with
  | nil => simp [System.wakeWaiters]
  | cons t rest ih =>
    unfold System.wakeWaiters
    split_ifs
    · exact ih token
    · have hwrap : wrap32 (wrap32 token - needCount t) = wrap32 (token - needCount t) := by
        unfold wrap32
        exact Int.bmod_sub_bmod
      rw [hwrap]
      simp only [List.map_cons, List.sum_cons, ih]
      congr 1
      ring

namespace TimedSystem

/-- A signal that is accepted takes from the counter what the waiters need that it removes, and a
thread that returns takes nothing. -/
structure ServesTokens (s : TimedSystem ι) : Prop where
  signal : ∀ (t : ι) (signalCount : Int32) (s' : TimedSystem ι),
    step s (.call t (.signal signalCount)) = .ok s' →
    s'.sys.sem = s.sys.sem ∨ ∃ woken : List ι, woken.Nodup ∧
      (∀ u, u ∈ woken ↔ u ∈ s.sys.sem.waitList ∧ u ∉ s'.sys.sem.waitList) ∧
      s'.sys.sem.tokenCount =
        wrap32 (s.sys.sem.tokenCount + signalCount.toInt - (woken.map s.sys.needCount).sum)
  relock : ∀ (t : ι) (s' : TimedSystem ι), step s (.relock t) = .ok s' →
    s'.sys.sem.tokenCount = s.sys.sem.tokenCount

theorem Inv.servesTokens {s : TimedSystem ι} (hinv : s.Inv) : s.ServesTokens := by
  refine ⟨fun t signalCount s' h => ?_, fun t s' h => ?_⟩
  · simp only [TimedSystem.step, TimedCall.run, Call.run] at h
    split at h
    · cases h
    cases hsignal : s.sys.signal signalCount.toInt with
    | none => simp [hsignal] at h
    | some r =>
      simp only [hsignal, Except.ok.injEq] at h
      subst h
      rcases signal_cases hsignal with hsame | ⟨woken, hwoken, -⟩
      · exact .inl (congrArg System.sem hsame)
      · have hmem := mem_woken_iff hinv.nodup (wrap32 (s.sys.sem.tokenCount + signalCount.toInt))
        have hsub := (wakeWaiters_sublist s.sys.needCount s.sys.sem.waitList
          (wrap32 (s.sys.sem.tokenCount + signalCount.toInt))).2
        have htokens := wakeWaiters_tokens s.sys.needCount s.sys.sem.waitList
          (s.sys.sem.tokenCount + signalCount.toInt)
        rw [← hwoken] at hmem hsub htokens
        exact .inr ⟨woken, hinv.nodup.sublist hsub, hmem, htokens⟩
  · simp only [TimedSystem.step] at h
    split at h
    · cases h
      rfl
    · cases h

/-- Every timed wait that has returned came back right, and the tokens are served right. -/
def Right (s : TimedSystem ι) : Prop := (∀ r ∈ s.returns, r.Right) ∧ s.ServesTokens

end TimedSystem

/-- In every state of every run, in any interleaving, the timed waits are right exactly if all came
back on time. -/
theorem timed_waits_right_iff {hasName : Bool} {attr : ℕ} {initCount maxCount : Int32}
    {sem : OrbisSem ι}
    (hsem : sceKernelCreateSema hasName attr initCount maxCount = .ok sem) {s : TimedSystem ι}
    (h : TimedReachable sem s) : s.Right ↔ ∀ r ∈ s.returns, r.OnTime := by
  have hempty : sem.waitList = [] := by
    unfold sceKernelCreateSema at hsem
    split_ifs at hsem
    cases hsem
    rfl
  obtain ⟨hinv, hnoted⟩ := h.noted hempty
  constructor
  · exact fun hright r hr => (hnoted r hr).right_iff.mp (hright.1 r hr)
  · exact fun htime => ⟨fun r hr => (hnoted r hr).right_iff.mpr (htime r hr), hinv.servesTokens⟩

section Sample

/-- An empty semaphore. -/
def sampleSem : OrbisSem ℕ := ⟨[], 0, 1, 0, true⟩

/-- Thread 1 signals after 400 microseconds. -/
theorem right_in_time : ∃ s : TimedSystem ℕ, s.returns = [⟨.ok, some .signal, 1000, 400, 600, 0⟩] ∧
    s.Right := by
  have hwait : TimedReachable sampleSem _ :=
    .step .create (a := .call 0 (.wait 1 700 (some 1000))) rfl
  have hsignal : TimedReachable sampleSem _ := .step hwait (a := .call 1 (.signal 1)) rfl
  have hacquire : TimedReachable sampleSem _ := .step hsignal (a := .acquire 0 400) rfl
  have hreturn : TimedReachable sampleSem _ := .step hacquire (a := .relock 0) rfl
  refine ⟨_, rfl,
    (@timed_waits_right_iff ℕ _ true 1 0 1 sampleSem (by decide) _ hreturn).mpr fun r hr => ?_⟩
  rw [List.mem_singleton.mp hr]
  exact ⟨fun _ => .inl (by decide), fun h => by rcases h with h | h <;> cases h⟩

/-- Thread 0 gives up after 1005 microseconds, but thread 1 signals before it has the mutex. -/
theorem wrong_after_timeout : ¬ ∀ (sem : OrbisSem ℕ) (s : TimedSystem ℕ),
    sceKernelCreateSema true 1 0 1 = .ok sem → TimedReachable sem s → s.Right := by
  intro h
  have hwait : TimedReachable sampleSem _ :=
    .step .create (a := .call 0 (.wait 1 700 (some 1000))) rfl
  have hexpire : TimedReachable sampleSem _ := .step hwait (a := .expire 0 1005) rfl
  have hsignal : TimedReachable sampleSem _ := .step hexpire (a := .call 1 (.signal 1)) rfl
  have hreturn : TimedReachable sampleSem _ := .step hsignal (a := .relock 0) rfl
  have hright :=
    (h sampleSem _ (by decide) hreturn).1 ⟨.ok, some .signal, 1000, 1005, 4294967291, 0⟩ (.head _)
  exact absurd hright.le (by decide)

end Sample

end PS4Droid.Threads
