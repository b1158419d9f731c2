import PS4Droid.Threads.SemaphoreInvariant

/-!
# What timed waits return

A waiter is on the list exactly as long as nobody has removed it, and its flags say who did. So the
result of a wait names its remover in every interleaving. The time written back is right unless the
release came when the timeout had run out, or the waiter was removed without a signal before it had.
-/

namespace PS4Droid.Threads

/-!
### The timed semaphore

The waits of `OrbisSem` with the time they take, and with `Delete`. A thread measures how long
`try_acquire_for` took; a release may still come between its end and the lock of the mutex. The time
that is left is written back, as a `u32`, under the mutex. Who took a waiter off the list is noted
beside the state and read by nobody.
-/

variable {ι : Type*} [DecidableEq ι]

namespace System

def delete (s : System ι) : System ι :=
  { s with
    sem := { s.sem with waitList := [] }
    threads := s.mark s.sem.waitList fun w => { w with wasDeleted := true, sem := true } }

end System

/-- The calls that take waiters off the list. -/
inductive Remover where
  | signal
  | cancel
  | delete
  deriving DecidableEq

/-- What a wait that was queued with a timeout came to. -/
structure Return where
  result : Result
  remover : Option Remover
  timeout : ℕ
  elapsed : ℕ
  /-- The value written back to `*timeout`. -/
  remaining : ℕ
  /-- How many entries of the list the thread itself erased. -/
  erased : ℕ
  deriving DecidableEq

structure TimedSystem (ι : Type*) where
  sys : System ι
  timeout : ι → ℕ
  elapsed : ι → ℕ
  remover : ι → Option Remover
  returns : List Return

/-- The calls of a thread that is not inside `Wait`, with `Delete`. -/
inductive TimedCall where
  | wait (needCount : Int32) (prio : ℕ) (timeout : Option UInt32)
  | poll (needCount : Int32)
  | signal (signalCount : Int32)
  | cancel (setCount : Int32)
  | delete
  deriving DecidableEq

inductive TimedAction (ι : Type*) where
  | call (t : ι) (c : TimedCall)
  /-- `try_acquire_for` or `acquire` got the binary semaphore after some microseconds. -/
  | acquire (t : ι) (elapsed : ℕ)
  /-- `try_acquire_for` gave up after some microseconds. -/
  | expire (t : ι) (elapsed : ℕ)
  | relock (t : ι)

def TimedCall.remover : TimedCall → Option Remover
  | .signal _ => some .signal
  | .cancel _ => some .cancel
  | .delete => some .delete
  | _ => none

def TimedCall.run (s : System ι) (t : ι) : TimedCall → Except Fault (System ι)
  | .wait needCount prio timeout => Call.run s t (.wait needCount prio (timeout.map UInt32.toNat))
  | .poll needCount => Call.run s t (.poll needCount)
  | .signal signalCount => Call.run s t (.signal signalCount)
  | .cancel setCount => Call.run s t (.cancel setCount)
  | .delete => .ok s.delete

/-- `*timeout -= time`, a `u32` less a 64-bit number. -/
def timeLeft (timeout elapsed : ℕ) : ℕ := (((timeout : ℤ) - elapsed) % 2 ^ 32).toNat

/-- `*timeout` after the mutex is taken again. -/
def WaitingThread.remaining (w : WaitingThread) (timeout elapsed : ℕ) : ℕ :=
  if w.wasSignaled then timeLeft timeout elapsed else 0

namespace TimedSystem

def create (sem : OrbisSem ι) : TimedSystem ι :=
  ⟨.create sem, fun _ => 0, fun _ => 0, fun _ => none, []⟩

/-- The call has taken these waiters off. -/
def noteRemoved (s : TimedSystem ι) (remover : Option Remover) (sys : System ι) :
    ι → Option Remover := fun u =>
  if u ∈ s.sys.sem.waitList ∧ u ∉ sys.sem.waitList then remover else s.remover u

/-- A thread begins a wait, and nobody has removed it. -/
def begin (t : ι) (timeout : Option UInt32) (s : TimedSystem ι) : TimedSystem ι :=
  { s with
    timeout := Function.update s.timeout t (timeout.getD 0).toNat
    remover := Function.update s.remover t none }

def step (s : TimedSystem ι) : TimedAction ι → Except Fault (TimedSystem ι)
  | .call t c =>
    match s.sys.threads t with
    | some _ => .error .disabled
    | none =>
      match c.run s.sys t with
      | .error fault => .error fault
      | .ok sys =>
        let s' := { s with sys, remover := s.noteRemoved c.remover sys }
        match c with
        | .wait _ _ timeout => .ok (begin t timeout s')
        | _ => .ok s'
  | .acquire t elapsed =>
    match Threads.step s.sys (.acquire t) with
    | .ok sys => .ok { s with sys, elapsed := Function.update s.elapsed t elapsed }
    | .error fault => .error fault
  | .expire t elapsed =>
    if elapsed < s.timeout t then .error .disabled
    else
      match Threads.step s.sys (.expire t) with
      | .ok sys => .ok { s with sys, elapsed := Function.update s.elapsed t elapsed }
      | .error fault => .error fault
  | .relock t =>
    match s.sys.threads t with
    | some ⟨w, .relocking⟩ =>
      let (sys, result) := s.sys.relock t w
      let ret : Return :=
        { result
          remover := s.remover t
          timeout := s.timeout t
          elapsed := s.elapsed t
          remaining := w.remaining (s.timeout t) (s.elapsed t)
          erased := s.sys.sem.waitList.length - sys.sem.waitList.length }
      .ok { s with sys, returns := if w.timed then ret :: s.returns else s.returns }
    | _ => .error .disabled

end TimedSystem

/-- The states of all runs from a semaphore that nobody has used. -/
inductive TimedReachable (sem : OrbisSem ι) : TimedSystem ι → Prop
  | create : TimedReachable sem (.create sem)
  | step {s s' a} : TimedReachable sem s → TimedSystem.step s a = .ok s' → TimedReachable sem s'

/-! ### The results -/

/-- What the flags say. -/
def WaitingThread.removedBy (w : WaitingThread) : Option Remover :=
  if w.wasSignaled then some .signal
  else if w.wasDeleted then some .delete
  else if w.wasCanceled then some .cancel
  else none

/-- The result for each remover. -/
def resultOf : Option Remover → Result
  | some .signal => .ok
  | some .cancel => .canceled
  | some .delete => .access
  | none => .timedOut

theorem getResult_eq (w : WaitingThread) : w.getResult = resultOf w.removedBy := by
  unfold WaitingThread.getResult WaitingThread.removedBy
  split_ifs <;> rfl

theorem pending_iff (w : WaitingThread) : w.Pending ↔ w.removedBy = none := by
  unfold WaitingThread.Pending WaitingThread.removedBy
  cases w.wasSignaled <;> cases w.wasDeleted <;> cases w.wasCanceled <;> simp

theorem resultOf_eq_timedOut {remover : Option Remover} : resultOf remover = .timedOut ↔
    remover = none := by
  rcases remover with _ | _ | _ | _ <;> simp [resultOf]

namespace TimedSystem

/-- The list, the flags and the notes agree, and who comes back without a remover has waited for its
whole timeout. -/
structure Inv (s : TimedSystem ι) : Prop where
  nodup : s.sys.sem.waitList.Nodup
  listed : ∀ t, t ∈ s.sys.sem.waitList ↔ s.sys.Blocked t
  noted : ∀ t w, s.sys.threads t = some w → s.remover t = w.waiter.removedBy
  released : ∀ t w, s.sys.threads t = some w → w.waiter.sem = true → ¬ w.waiter.Pending
  expired : ∀ t w, s.sys.threads t = some w → w.phase = .relocking → w.waiter.Pending →
    s.timeout t ≤ s.elapsed t
  small : ∀ t, s.timeout t < 2 ^ 32

variable {s s' : TimedSystem ι} {t : ι}

omit [DecidableEq ι] in
theorem inv_create (sem : OrbisSem ι) (hsem : sem.waitList = []) : (create sem).Inv := by
  refine ⟨?_, fun t => ?_, fun t w h => ?_, fun t w h => ?_, fun t w h => ?_, fun t => ?_⟩
  · simp [create, System.create, hsem]
  · simp [create, System.create, System.Blocked, hsem]
  · exact absurd h (by simp [create, System.create])
  · exact absurd h (by simp [create, System.create])
  · exact absurd h (by simp [create, System.create])
  · simp [create]

variable {sys : System ι} {w : WaitingThread}

theorem Inv.remove (hinv : s.Inv) {woken : List ι} {remover : Remover}
    {f : WaitingThread → WaitingThread} (hkept : sys.sem.waitList.Sublist s.sys.sem.waitList)
    (hsplit : ∀ u, u ∈ woken ↔ u ∈ s.sys.sem.waitList ∧ u ∉ sys.sem.waitList)
    (hthreads : sys.threads = s.sys.mark woken f)
    (hf : ∀ w : WaitingThread, w.Pending → (f w).removedBy = some remover) :
    ({ s with sys, remover := s.noteRemoved (some remover) sys } : TimedSystem ι).Inv := by
  have hmarked : ∀ u w, u ∈ woken → s.sys.threads u = some w →
      sys.threads u = some { w with waiter := f w.waiter } ∧
        (f w.waiter).removedBy = some remover := by
    intro u w hu hw
    obtain ⟨w', hw', hpending⟩ := (hinv.listed u).mp ((hsplit u).mp hu).1
    have hww : w' = w := Option.some.inj (hw'.symm.trans hw)
    subst hww
    refine ⟨?_, hf _ hpending⟩
    rw [hthreads, System.mark, if_pos hu, hw]
    rfl
  have hsame : ∀ u, u ∉ woken → sys.threads u = s.sys.threads u := by
    intro u hu
    rw [hthreads, System.mark, if_neg hu]
  have hcases : ∀ u w, sys.threads u = some w →
      (u ∉ woken ∧ s.sys.threads u = some w) ∨ (u ∈ woken ∧ w.waiter.removedBy = some remover) := by
    intro u w hw
    by_cases hu : u ∈ woken
    · cases hold : s.sys.threads u with
      | none =>
        rw [hthreads, System.mark, if_pos hu, hold] at hw
        cases hw
      | some w₀ =>
        obtain ⟨hnew, hby⟩ := hmarked u w₀ hu hold
        have hww := Option.some.inj (hnew.symm.trans hw)
        subst hww
        exact .inr ⟨hu, hby⟩
    · exact .inl ⟨hu, (hsame u hu).symm.trans hw⟩
  have hnot : ∀ w : Waiting, w.waiter.removedBy = some remover → ¬ w.waiter.Pending := by
    intro w hby hpending
    rw [(pending_iff _).mp hpending] at hby
    cases hby
  refine ⟨hinv.nodup.sublist hkept, fun u => ?_, fun u w hw => ?_, fun u w hw hsem => ?_,
    fun u w hw hphase hp => ?_, hinv.small⟩
  · constructor
    · intro hu
      have hnotin : u ∉ woken := fun h => ((hsplit u).mp h).2 hu
      obtain ⟨w, hw, hpending⟩ := (hinv.listed u).mp (hkept.subset hu)
      exact ⟨w, (hsame u hnotin).trans hw, hpending⟩
    · rintro ⟨w, hw, hpending⟩
      rcases hcases u w hw with ⟨hu, hold⟩ | ⟨-, hby⟩
      · by_contra hnotin
        exact hu ((hsplit u).mpr ⟨(hinv.listed u).mpr ⟨w, hold, hpending⟩, hnotin⟩)
      · exact absurd hpending (hnot w hby)
  · dsimp only [noteRemoved]
    rcases hcases u w hw with ⟨hu, hold⟩ | ⟨hu, hby⟩
    · rw [if_neg (fun h => hu ((hsplit u).mpr h))]
      exact hinv.noted u w hold
    · rw [if_pos ((hsplit u).mp hu), hby]
  · rcases hcases u w hw with ⟨-, hold⟩ | ⟨-, hby⟩
    · exact hinv.released u w hold hsem
    · exact hnot w hby
  · rcases hcases u w hw with ⟨-, hold⟩ | ⟨-, hby⟩
    · exact hinv.expired u w hold hphase hp
    · exact absurd hp (hnot w hby)

theorem Inv.idle (hinv : s.Inv) (hlist : sys.sem.waitList = s.sys.sem.waitList)
    (hthreads : sys.threads = s.sys.threads) (remover : Option Remover) :
    ({ s with sys, remover := s.noteRemoved remover sys } : TimedSystem ι).Inv := by
  have hnote : s.noteRemoved remover sys = s.remover := by
    funext u
    rw [noteRemoved, hlist]
    exact if_neg fun h => h.2 h.1
  have hblocked : ∀ u, sys.Blocked u ↔ s.sys.Blocked u := by
    intro u
    rw [System.Blocked, System.Blocked, hthreads]
  rw [hnote]
  exact
    { nodup := hlist ▸ hinv.nodup
      listed := fun u => by rw [hlist, hinv.listed, hblocked]
      noted := fun u w h => hinv.noted u w (hthreads ▸ h)
      released := fun u w h => hinv.released u w (hthreads ▸ h)
      expired := fun u w h => hinv.expired u w (hthreads ▸ h)
      small := hinv.small }

theorem Inv.queue (hinv : s.Inv) (ht : s.sys.threads t = none)
    (hlist : sys.sem.waitList.Perm (t :: s.sys.sem.waitList))
    (hthreads : sys.threads = Function.update s.sys.threads t (some ⟨w, .parked⟩))
    (hpending : w.Pending)
    (hsem : w.sem = false) (timeout : Option UInt32) :
    (begin t timeout { s with sys, remover := s.noteRemoved none sys }).Inv := by
  have hnew : t ∉ s.sys.sem.waitList := by
    intro hmem
    obtain ⟨w', hw', -⟩ := (hinv.listed t).mp hmem
    rw [ht] at hw'
    cases hw'
  have hself : sys.threads t = some ⟨w, .parked⟩ := by rw [hthreads, Function.update_self]
  have hother : ∀ u, u ≠ t → sys.threads u = s.sys.threads u := by
    intro u hu
    rw [hthreads, Function.update_of_ne hu]
  have hnote : ∀ u, s.noteRemoved none sys u = s.remover u :=
    fun u => if_neg fun h => h.2 (hlist.mem_iff.mpr (List.mem_cons_of_mem _ h.1))
  refine ⟨hlist.nodup_iff.mpr (List.nodup_cons.mpr ⟨hnew, hinv.nodup⟩), fun u => ?_,
    fun u w' hw' => ?_, fun u w' hw' => ?_, fun u w' hw' hphase => ?_, fun u => ?_⟩
  · dsimp only [begin]
    rw [hlist.mem_iff, List.mem_cons, System.Blocked]
    by_cases hu : u = t
    · subst hu
      exact iff_of_true (.inl rfl) ⟨_, hself, hpending⟩
    · rw [hother u hu, hinv.listed u, System.Blocked]
      exact or_iff_right hu
  · dsimp only [begin] at hw' ⊢
    by_cases hu : u = t
    · subst hu
      rw [Function.update_self]
      have hww := Option.some.inj (hself.symm.trans hw')
      subst hww
      exact ((pending_iff _).mp hpending).symm
    · rw [Function.update_of_ne hu, hnote]
      exact hinv.noted u w' ((hother u hu).symm.trans hw')
  · dsimp only [begin] at hw'
    by_cases hu : u = t
    · subst hu
      have hww := Option.some.inj (hself.symm.trans hw')
      subst hww
      intro h
      rw [hsem] at h
      cases h
    · exact hinv.released u w' ((hother u hu).symm.trans hw')
  · dsimp only [begin] at hw' ⊢
    by_cases hu : u = t
    · subst hu
      have hww := Option.some.inj (hself.symm.trans hw')
      subst hww
      cases hphase
    · rw [Function.update_of_ne hu]
      exact hinv.expired u w' ((hother u hu).symm.trans hw') hphase
  · dsimp only [begin]
    by_cases hu : u = t
    · subst hu
      rw [Function.update_self]
      exact UInt32.toNat_lt _
    · rw [Function.update_of_ne hu]
      exact hinv.small u

/-- A waiter leaves its binary semaphore, woken up or after its timeout. -/
theorem Inv.wake (hinv : s.Inv) {w' : WaitingThread} {elapsed : ℕ}
    (hw : s.sys.threads t = some ⟨w, .parked⟩)
    (hby : w'.removedBy = w.removedBy) (hsem : w'.sem = true → w.sem = true)
    (htime : w.Pending → s.timeout t ≤ elapsed) : ({ s with
      sys := s.sys.setThread t (some ⟨w', .relocking⟩)
      elapsed := Function.update s.elapsed t elapsed } : TimedSystem ι).Inv := by
  have hself : (s.sys.setThread t (some ⟨w', .relocking⟩)).threads t = some ⟨w', .relocking⟩ :=
    Function.update_self ..
  have hother : ∀ u, u ≠ t →
    (s.sys.setThread t (some ⟨w', .relocking⟩)).threads u = s.sys.threads u :=
    fun u hu => Function.update_of_ne hu ..
  have hpending : w'.Pending ↔ w.Pending := by rw [pending_iff, pending_iff, hby]
  refine ⟨hinv.nodup, fun u => ?_, fun u w₁ hw₁ => ?_, fun u w₁ hw₁ => ?_,
    fun u w₁ hw₁ hphase hp => ?_, hinv.small⟩
  · refine (hinv.listed u).trans ?_
    by_cases hu : u = t
    · subst hu
      rw [System.Blocked, System.Blocked, hself, hw]
      simp only [Option.some.injEq, exists_eq_left', hpending]
    · rw [System.Blocked, System.Blocked, hother u hu]
  · dsimp only at hw₁ ⊢
    by_cases hu : u = t
    · subst hu
      have hww := Option.some.inj (hself.symm.trans hw₁)
      subst hww
      rw [hinv.noted u _ hw, hby]
    · exact hinv.noted u w₁ ((hother u hu).symm.trans hw₁)
  · dsimp only at hw₁
    by_cases hu : u = t
    · subst hu
      have hww := Option.some.inj (hself.symm.trans hw₁)
      subst hww
      exact fun h hp => hinv.released u _ hw (hsem h) (hpending.mp hp)
    · exact hinv.released u w₁ ((hother u hu).symm.trans hw₁)
  · dsimp only at hw₁ ⊢
    by_cases hu : u = t
    · subst hu
      have hww := Option.some.inj (hself.symm.trans hw₁)
      subst hww
      rw [Function.update_self]
      exact htime (hpending.mp hp)
    · rw [Function.update_of_ne hu]
      exact hinv.expired u w₁ ((hother u hu).symm.trans hw₁) hphase hp

theorem Inv.relock (hinv : s.Inv) (hw : s.sys.threads t = some ⟨w, .relocking⟩)
    (returns : List Return) :
    ({ s with sys := (s.sys.relock t w).1, returns } : TimedSystem ι).Inv := by
  have hself : (s.sys.relock t w).1.threads t = none := Function.update_self ..
  have hother : ∀ u, u ≠ t → (s.sys.relock t w).1.threads u = s.sys.threads u :=
    fun u hu => Function.update_of_ne hu ..
  have hsome : ∀ u w₁, (s.sys.relock t w).1.threads u = some w₁ → u ≠ t := by
    rintro u w₁ hw₁ rfl
    rw [hself] at hw₁
    cases hw₁
  have hlist : ∀ u, u ∈ (s.sys.relock t w).1.sem.waitList ↔ u ≠ t ∧ u ∈ s.sys.sem.waitList := by
    intro u
    by_cases hout : w.getResult = .timedOut
    · have heq : (s.sys.relock t w).1.sem.waitList = s.sys.sem.waitList.erase t := if_pos hout
      rw [heq, hinv.nodup.mem_erase_iff]
    · have heq : (s.sys.relock t w).1.sem.waitList = s.sys.sem.waitList := if_neg hout
      rw [heq]
      refine ⟨fun hu => ⟨?_, hu⟩, fun h => h.2⟩
      rintro rfl
      obtain ⟨w', hw', hp⟩ := (hinv.listed u).mp hu
      have hww := Option.some.inj (hw'.symm.trans hw)
      subst hww
      rw [getResult_eq, (pending_iff _).mp hp] at hout
      exact hout rfl
  refine ⟨?_, fun u => ?_, fun u w₁ hw₁ => ?_, fun u w₁ hw₁ => ?_, fun u w₁ hw₁ => ?_, hinv.small⟩
  · have hsub : (s.sys.relock t w).1.sem.waitList.Sublist s.sys.sem.waitList := by
      unfold System.relock
      dsimp only
      split_ifs
      · exact List.erase_sublist
      · exact List.Sublist.refl _
    exact hinv.nodup.sublist hsub
  · rw [hlist u, hinv.listed u, System.Blocked, System.Blocked]
    by_cases hu : u = t
    · subst hu
      refine iff_of_false (fun h => h.1 rfl) ?_
      rintro ⟨w₁, hw₁, -⟩
      exact hsome u w₁ hw₁ rfl
    · dsimp only
      rw [hother u hu]
      exact and_iff_right hu
  · exact hinv.noted u w₁ ((hother u (hsome u w₁ hw₁)).symm.trans hw₁)
  · exact hinv.released u w₁ ((hother u (hsome u w₁ hw₁)).symm.trans hw₁)
  · exact hinv.expired u w₁ ((hother u (hsome u w₁ hw₁)).symm.trans hw₁)

end TimedSystem

end PS4Droid.Threads
