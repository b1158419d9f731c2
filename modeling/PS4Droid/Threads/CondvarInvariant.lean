import PS4Droid.Threads.Condvar

/-!
# Condition variables neither abort nor lose wakeups

Every removal from a sleep queue promises one release of a wake semaphore. The invariant says where
the promise of each thread is: put off by another thread, decided on, or a token in the semaphore.
A thread on a queue has none, so a token never wakes it there.
-/

namespace PS4Droid.Threads.Condvar

variable {ι κ μ : Type}

/-- Where the promised release of a thread is. -/
inductive Place (ι : Type) where
  | nowhere
  | deferred (t : ι)
  | releasing
  | token
  deriving DecidableEq

variable [DecidableEq ι] {s s' : System ι κ μ} {t td : ι} {place : Place ι}

/-- The promise of the thread is at this place and nowhere else. -/
structure System.At (s : System ι κ μ) (td : ι) (place : Place ι) : Prop where
  wakeSema : s.wakeSema td = if place = .token then 1 else 0
  releasing : s.releasing.count td = if place = .releasing then 1 else 0
  deferWaiters : ∀ t, (s.deferWaiters t).count td = if place = .deferred t then 1 else 0

namespace System.At

theorem congr (h : s.At td place) (hsema : s'.wakeSema td = s.wakeSema td)
    (hreleasing : s'.releasing = s.releasing) (hdefer : s'.deferWaiters = s.deferWaiters) :
    s'.At td place :=
  ⟨hsema.trans h.wakeSema, hreleasing ▸ h.releasing, hdefer ▸ h.deferWaiters⟩

theorem mem_releasing (h : s.At td place) : td ∈ s.releasing ↔ place = .releasing := by
  rw [← List.count_pos_iff, h.releasing]
  split_ifs with hplace <;> simp [hplace]

theorem mem_deferWaiters (h : s.At td place) (t : ι) :
    td ∈ s.deferWaiters t ↔ place = .deferred t := by
  rw [← List.count_pos_iff, h.deferWaiters]
  split_ifs with hplace <;> simp [hplace]

theorem unique {place' : Place ι} (h : s.At td place) (h' : s.At td place') : place = place' := by
  cases place with
  | token =>
    have := h'.wakeSema
    rw [h.wakeSema] at this
    by_contra hne
    simp [Ne.symm hne] at this
  | releasing => exact (h'.mem_releasing.mp (h.mem_releasing.mpr rfl)).symm
  | deferred t => exact ((h'.mem_deferWaiters t).mp ((h.mem_deferWaiters t).mpr rfl)).symm
  | nowhere =>
    cases place' with
    | nowhere => rfl
    | token =>
      have := h'.wakeSema
      rw [h.wakeSema] at this
      simp at this
    | releasing => exact h.mem_releasing.mp (h'.mem_releasing.mpr rfl)
    | deferred t => exact (h.mem_deferWaiters t).mp ((h'.mem_deferWaiters t).mpr rfl)

theorem outstanding (h : s.At td place) :
    s.Outstanding td ↔ place = .releasing ∨ ∃ t, place = .deferred t := by
  simp only [System.Outstanding, h.mem_releasing, h.mem_deferWaiters]

theorem wakeAll (h : s.At td place) (t : ι) :
    (s.wakeAll t).At td (if place = .deferred t then .releasing else place) := by
  have hreleasing := h.releasing
  have hdefer := h.deferWaiters
  split_ifs with hplace
  · subst hplace
    refine ⟨h.wakeSema, ?_, fun t' => ?_⟩
    · rw [System.wakeAll, List.count_append, hreleasing, hdefer t]
      simp
    · by_cases ht : t' = t
      · subst ht
        simp [System.wakeAll]
      · have := hdefer t'
        simp [System.wakeAll, Function.update_of_ne ht, this, Ne.symm ht]
  · refine ⟨h.wakeSema, ?_, fun t' => ?_⟩
    · rw [System.wakeAll, List.count_append, hreleasing, hdefer t, if_neg hplace, Nat.add_zero]
    · by_cases ht : t' = t
      · subst ht
        simp [System.wakeAll, hplace]
      · simpa [System.wakeAll, Function.update_of_ne ht] using hdefer t'

/-- The caller puts off the release of a thread that was promised none. -/
theorem defer (h : s.At td .nowhere) (hsema : s'.wakeSema = s.wakeSema)
    (hreleasing : s'.releasing = s.releasing)
    (hdefer : s'.deferWaiters = Function.update s.deferWaiters t (s.deferWaiters t ++ [td])) :
    s'.At td (.deferred t) := by
  refine ⟨?_, ?_, fun t' => ?_⟩
  · rw [hsema, h.wakeSema]
    rfl
  · rw [hreleasing, h.releasing]
    rfl
  · rw [hdefer]
    have := h.deferWaiters t'
    by_cases ht : t' = t
    · subst ht
      simp [List.count_append, this]
    · simp [Function.update_of_ne ht, this, Ne.symm ht]

theorem defer_of_ne (h : s.At td place) {other : ι} (hne : td ≠ other)
    (hsema : s'.wakeSema = s.wakeSema) (hreleasing : s'.releasing = s.releasing)
    (hdefer : s'.deferWaiters = Function.update s.deferWaiters t (s.deferWaiters t ++ [other])) :
    s'.At td place := by
  refine ⟨?_, ?_, fun t' => ?_⟩
  · rw [hsema, h.wakeSema]
  · rw [hreleasing, h.releasing]
  · rw [hdefer, ← h.deferWaiters t']
    by_cases ht : t' = t
    · subst ht
      simp [List.count_append, Ne.symm hne]
    · rw [Function.update_of_ne ht]

end System.At

/-- The thread is on the queue of a condition variable, with a mutex to go back to. -/
def System.Queued (s : System ι κ μ) (t : ι) (c : κ) (mp : μ) : Prop :=
  s.wchan t = some c ∧ s.mutexObj t = some mp ∧ s.signalled t = false

/-- The thread was removed from its queue by another one. -/
def System.Removed (s : System ι κ μ) (t : ι) : Prop :=
  s.wchan t = none ∧ s.signalled t = true

def PhaseInv (s : System ι κ μ) (t : ι) (place : Place ι) : Phase κ μ → Prop
  | .running | .deadlocked => s.wchan t = none
  | .sleeping c mp recurse _ => s.entry t = some (mp, recurse) ∧
      (s.Queued t c mp ∧ place = .nowhere ∨ s.Removed t ∧ place ≠ .nowhere)
  | .awake c mp recurse acquired => s.entry t = some (mp, recurse) ∧
      (acquired = false ∧ s.Queued t c mp ∧ place = .nowhere ∨ s.Removed t)
  | .relocking mp recurse error => s.entry t = some (mp, recurse) ∧ s.wchan t = none ∧
      (error = .ok → s.signalled t = true)
  | .unreachable => False

def ThreadInv (s : System ι κ μ) (t : ι) : Prop :=
  ∃ place, s.At t place ∧ PhaseInv s t place (s.threads t)

/-- What a thread has put off will be released when it unlocks some mutex. -/
def FlagInv (s : System ι κ μ) : Prop :=
  ∀ t, s.deferWaiters t ≠ [] → ∃ mp, (s.mutexes mp).owner = some t ∧ (s.mutexes mp).deferred = true

structure QueueInv (s : System ι κ μ) : Prop where
  nodup : ∀ c, (s.queue c).Nodup
  mem_iff : ∀ c t, t ∈ s.queue c ↔ s.wchan t = some c

structure Inv (s : System ι κ μ) : Prop where
  queues : QueueInv s
  threads : ∀ t, ThreadInv s t
  flags : FlagInv s

/-- The parts of the state that `PhaseInv` reads are the same for this thread. -/
structure SameThread (s s' : System ι κ μ) (t : ι) : Prop where
  wchan : s'.wchan t = s.wchan t
  mutexObj : s'.mutexObj t = s.mutexObj t
  signalled : s'.signalled t = s.signalled t
  entry : s'.entry t = s.entry t
  threads : s'.threads t = s.threads t

omit [DecidableEq ι] in
theorem SameThread.phaseInv (h : SameThread s s' t) {place' : Place ι}
    (hplace : place' = .nowhere ↔ place = .nowhere) (hinv : PhaseInv s t place (s.threads t)) :
    PhaseInv s' t place' (s'.threads t) := by
  rw [h.threads]
  cases hphase : s.threads t <;> rw [hphase] at hinv
  case unreachable => exact hinv
  all_goals
    simpa only [PhaseInv, System.Queued, System.Removed, h.wchan, h.mutexObj, h.signalled, h.entry,
      ne_eq, hplace] using hinv

/-- A step that leaves a thread alone and does not touch promises. -/
theorem ThreadInv.same (hinv : ThreadInv s t) (h : SameThread s s' t)
    (hsema : s'.wakeSema t = s.wakeSema t) (hreleasing : s'.releasing = s.releasing)
    (hdefer : s'.deferWaiters = s.deferWaiters) : ThreadInv s' t := by
  obtain ⟨place, hat, hphase⟩ := hinv
  exact ⟨place, hat.congr hsema hreleasing hdefer, h.phaseInv Iff.rfl hphase⟩

theorem ThreadInv.wakeAll (hinv : ThreadInv s td) (t : ι) : ThreadInv (s.wakeAll t) td := by
  obtain ⟨place, hat, hphase⟩ := hinv
  refine ⟨_, hat.wakeAll t, SameThread.phaseInv ⟨rfl, rfl, rfl, rfl, rfl⟩ ?_ hphase⟩
  split_ifs with hplace <;> simp [hplace]

section WakeLater

variable [DecidableEq μ] {mp : μ}

theorem System.wakeLater_cases (hobj : s.mutexObj td = some mp) (t : ι) :
    ((s.mutexes mp).owner = some t ∧ ∃ s₀, (s₀ = s ∨ s₀ = s.wakeAll t) ∧
        s.wakeLater t td = { s₀.setMutex mp { s₀.mutexes mp with deferred := true } with
          deferWaiters := Function.update s₀.deferWaiters t (s₀.deferWaiters t ++ [td]) }) ∨
      s.wakeLater t td = { s with releasing := s.releasing ++ [td] } := by
  simp only [System.wakeLater, hobj]
  by_cases howner : (s.mutexes mp).owner = some t
  · left
    rw [if_pos howner]
    refine ⟨howner, _, ?_, rfl⟩
    split_ifs
    · exact .inr rfl
    · exact .inl rfl
  · right
    rw [if_neg howner]

theorem System.sameThread_wakeLater (s : System ι κ μ) (t td t' : ι) :
    SameThread s (s.wakeLater t td) t' := by
  unfold System.wakeLater
  split
  · split_ifs <;> exact ⟨rfl, rfl, rfl, rfl, rfl⟩
  · exact ⟨rfl, rfl, rfl, rfl, rfl⟩

theorem System.queue_wakeLater (s : System ι κ μ) (t td : ι) :
    (s.wakeLater t td).queue = s.queue ∧ (s.wakeLater t td).wchan = s.wchan := by
  unfold System.wakeLater
  split
  · split_ifs <;> exact ⟨rfl, rfl⟩
  · exact ⟨rfl, rfl⟩

theorem System.At.wakeLater (h : s.At td .nowhere) (hobj : s.mutexObj td = some mp) (t : ι) :
    ∃ place, place ≠ .nowhere ∧ (s.wakeLater t td).At td place := by
  obtain ⟨-, s₀, hs₀, heq⟩ | heq := System.wakeLater_cases hobj t
  · have hat : s₀.At td .nowhere := by
      obtain rfl | rfl := hs₀
      · exact h
      · exact h.wakeAll t
    exact ⟨.deferred t, nofun, heq ▸ hat.defer rfl rfl rfl⟩
  · refine ⟨.releasing, nofun, heq ▸ ⟨h.wakeSema, ?_, h.deferWaiters⟩⟩
    simp [List.count_append, h.releasing]

theorem ThreadInv.wakeLater_of_ne {t' : ι} (h : ThreadInv s t') (hne : t' ≠ td)
    (hobj : s.mutexObj td = some mp) (t : ι) : ThreadInv (s.wakeLater t td) t' := by
  obtain ⟨-, s₀, hs₀, heq⟩ | heq := System.wakeLater_cases hobj t
  · have hinv : ThreadInv s₀ t' := by
      obtain rfl | rfl := hs₀
      · exact h
      · exact h.wakeAll t
    obtain ⟨place, hat, hphase⟩ := hinv
    rw [heq]
    exact ⟨place, hat.defer_of_ne hne rfl rfl rfl,
      SameThread.phaseInv ⟨rfl, rfl, rfl, rfl, rfl⟩ Iff.rfl hphase⟩
  · obtain ⟨place, hat, hphase⟩ := h
    rw [heq]
    refine ⟨place, ⟨hat.wakeSema, ?_, hat.deferWaiters⟩,
      SameThread.phaseInv ⟨rfl, rfl, rfl, rfl, rfl⟩ Iff.rfl hphase⟩
    simpa [List.count_append, List.count_singleton, hne, Ne.symm hne] using hat.releasing

omit [DecidableEq μ] in
theorem FlagInv.wakeAll (h : FlagInv s) (t : ι) : FlagInv (s.wakeAll t) := by
  intro t' hdefer
  by_cases ht : t' = t
  · subst ht
    exact absurd (by simp [System.wakeAll]) hdefer
  · exact h t' (by simpa [System.wakeAll, Function.update_of_ne ht] using hdefer)

theorem FlagInv.wakeLater (h : FlagInv s) (hobj : s.mutexObj td = some mp) (t : ι) :
    FlagInv (s.wakeLater t td) := by
  obtain ⟨howner, s₀, hs₀, heq⟩ | heq := System.wakeLater_cases hobj t
  · have hflags : FlagInv s₀ ∧ (s₀.mutexes mp).owner = some t := by
      obtain rfl | rfl := hs₀
      · exact ⟨h, howner⟩
      · exact ⟨h.wakeAll t, howner⟩
    rw [heq]
    intro t' hdefer
    by_cases ht : t' = t
    · subst ht
      exact ⟨mp, by simp [System.setMutex, hflags.2]⟩
    · obtain ⟨mp', howner', hflag⟩ := hflags.1 t' (by simpa [Function.update_of_ne ht] using hdefer)
      have hmp : mp' ≠ mp := by
        rintro rfl
        exact ht (Option.some.inj (howner'.symm.trans hflags.2))
      exact ⟨mp', by simp [System.setMutex, Function.update_of_ne hmp, howner', hflag]⟩
  · rw [heq]
    exact h

end WakeLater

section Remove

variable {c : κ}

/-- A thread on a queue sleeps, or has just given up its sleep, and is promised nothing. -/
theorem ThreadInv.queued (h : ThreadInv s td) (hchan : s.wchan td = some c) :
    ∃ mp recurse, s.Queued td c mp ∧ s.At td .nowhere ∧ s.entry td = some (mp, recurse) ∧
      ((∃ timed, s.threads td = .sleeping c mp recurse timed) ∨
        s.threads td = .awake c mp recurse false) := by
  obtain ⟨place, hat, hphase⟩ := h
  cases hthread : s.threads td with
  | running | deadlocked =>
    rw [hthread] at hphase
    cases hchan.symm.trans hphase
  | sleeping c' mp recurse timed =>
    rw [hthread] at hphase
    obtain ⟨hentry, ⟨hqueued, rfl⟩ | ⟨hremoved, -⟩⟩ := hphase
    · obtain rfl : c' = c := Option.some.inj (hqueued.1.symm.trans hchan)
      exact ⟨mp, recurse, hqueued, hat, hentry, .inl ⟨timed, rfl⟩⟩
    · cases hchan.symm.trans hremoved.1
  | awake c' mp recurse acquired =>
    rw [hthread] at hphase
    obtain ⟨hentry, ⟨rfl, hqueued, rfl⟩ | hremoved⟩ := hphase
    · obtain rfl : c' = c := Option.some.inj (hqueued.1.symm.trans hchan)
      exact ⟨mp, recurse, hqueued, hat, hentry, .inr rfl⟩
    · cases hchan.symm.trans hremoved.1
  | relocking mp recurse error =>
    rw [hthread] at hphase
    cases hchan.symm.trans hphase.2.1
  | unreachable =>
    rw [hthread] at hphase
    exact hphase.elim

variable [DecidableEq κ] [DecidableEq μ]

omit [DecidableEq μ] in
theorem QueueInv.sleepqRemove (h : QueueInv s) (hchan : s.wchan td = some c) :
    QueueInv (s.sleepqRemove c td) where
  nodup c' := by
    by_cases hc : c' = c
    · subst hc
      simpa [System.sleepqRemove] using List.Nodup.sublist List.filter_sublist (h.nodup c')
    · simpa [System.sleepqRemove, Function.update_of_ne hc] using h.nodup c'
  mem_iff c' t' := by
    have hmem := h.mem_iff c' t'
    by_cases hc : c' = c
    · subst hc
      by_cases ht : t' = td
      · subst ht
        simp [System.sleepqRemove]
      · simp [System.sleepqRemove, ht, hmem]
    · by_cases ht : t' = td
      · subst ht
        rw [hchan] at hmem
        simpa [System.sleepqRemove, Function.update_of_ne hc, Ne.symm hc] using hmem
      · simpa [System.sleepqRemove, Function.update_of_ne ht, Function.update_of_ne hc] using hmem

theorem Inv.removeAndWake (h : Inv s) (t : ι) (hmem : td ∈ s.queue c) :
    Inv (s.removeAndWake t c td) := by
  have hchan := (h.queues.mem_iff c td).mp hmem
  obtain ⟨mp, recurse, hqueued, hat, hentry, hthread⟩ := (h.threads td).queued hchan
  have hobj : (s.sleepqRemove c td).mutexObj td = some mp := hqueued.2.1
  have hsame := (s.sleepqRemove c td).sameThread_wakeLater t td
  have hwchan : ((s.sleepqRemove c td).wakeLater t td).wchan td = none := by
    rw [(hsame td).wchan]
    simp [System.sleepqRemove]
  refine ⟨?_, fun t' => ?_, ?_⟩
  · obtain ⟨hqueue, hchans⟩ := (s.sleepqRemove c td).queue_wakeLater t td
    have hremoved := h.queues.sleepqRemove hchan
    exact ⟨fun c' => hqueue ▸ hremoved.nodup c',
      fun c' t' => hqueue ▸ hchans ▸ hremoved.mem_iff c' t'⟩
  · by_cases ht : t' = td
    · subst ht
      have hat' : (s.sleepqRemove c t').At t' .nowhere := hat.congr rfl rfl rfl
      obtain ⟨place, hplace, hat''⟩ := hat'.wakeLater hobj t
      have hremoved : (s.removeAndWake t c t').Removed t' :=
        ⟨hwchan, by simp [System.removeAndWake]⟩
      refine ⟨place, hat''.congr rfl rfl rfl, ?_⟩
      have hphase : (s.removeAndWake t c t').threads t' = s.threads t' := (hsame t').threads
      have hentry' : (s.removeAndWake t c t').entry t' = some (mp, recurse) :=
        (hsame t').entry.trans hentry
      rw [hphase]
      obtain ⟨timed, hthread⟩ | hthread := hthread
      · rw [hthread]
        exact ⟨hentry', .inr ⟨hremoved, hplace⟩⟩
      · rw [hthread]
        exact ⟨hentry', .inr hremoved⟩
    · have hinv : ThreadInv (s.sleepqRemove c td) t' := by
        refine (h.threads t').same ⟨?_, rfl, rfl, rfl, rfl⟩ rfl rfl rfl
        simp [System.sleepqRemove, Function.update_of_ne ht]
      refine (hinv.wakeLater_of_ne ht hobj t).same ⟨rfl, rfl, ?_, rfl, rfl⟩ rfl rfl rfl
      rw [(hsame t').signalled]
      simp [System.removeAndWake, System.sleepqRemove, Function.update_of_ne ht]
  · have hflags : FlagInv (s.sleepqRemove c td) := h.flags
    exact hflags.wakeLater hobj t

theorem System.queue_removeAndWake (s : System ι κ μ) (t : ι) (c : κ) (td : ι) :
    (s.removeAndWake t c td).queue c = (s.queue c).filter (· ≠ td) := by
  have hqueue : (s.removeAndWake t c td).queue = (s.sleepqRemove c td).queue :=
    ((s.sleepqRemove c td).queue_wakeLater t td).1
  rw [hqueue]
  simp [System.sleepqRemove]

theorem Inv.signal (h : Inv s) (t : ι) (c : κ) : Inv (s.signal t c) := by
  unfold System.signal
  split
  · exact h
  · rename_i td rest hqueue
    exact h.removeAndWake t (by rw [hqueue]; exact List.mem_cons_self)

theorem Inv.broadcast (h : Inv s) (t : ι) (c : κ) : Inv (s.broadcast t c) := by
  have hloop : ∀ (waiters : List ι) (s : System ι κ μ), Inv s → waiters.Nodup →
      (∀ td ∈ waiters, td ∈ s.queue c) →
      Inv (waiters.foldl (fun s td => s.removeAndWake t c td) s) := by
    intro waiters
    induction waiters with
    | nil => exact fun s h _ _ => h
    | cons td rest ih =>
      intro s h hnodup hmem
      obtain ⟨hnotin, hnodup⟩ := List.nodup_cons.mp hnodup
      refine ih _ (h.removeAndWake t (hmem td List.mem_cons_self)) hnodup ?_
      intro td' htd'
      rw [System.queue_removeAndWake, List.mem_filter]
      refine ⟨hmem td' (List.mem_cons_of_mem _ htd'), decide_eq_true ?_⟩
      rintro rfl
      exact hnotin htd'
  exact hloop (s.queue c) s h (h.queues.nodup c) fun _ hmem => hmem

end Remove

section Mutexes

variable [DecidableEq μ] {mp : μ} {mutex : PthreadMutex ι}

omit [DecidableEq ι] in
/-- A mutex changes, but not its owner, and a mark for deferred waiters stays. -/
theorem FlagInv.setMutex (h : FlagInv s) (howner : mutex.owner = (s.mutexes mp).owner)
    (hdeferred : mutex.deferred = (s.mutexes mp).deferred) : FlagInv (s.setMutex mp mutex) := by
  intro t hdefer
  obtain ⟨mp', howner', hflag⟩ := h t hdefer
  refine ⟨mp', ?_⟩
  by_cases hmp : mp' = mp
  · subst hmp
    simp [System.setMutex, howner, hdeferred, howner', hflag]
  · simp [System.setMutex, Function.update_of_ne hmp, howner', hflag]

omit [DecidableEq ι] in
theorem FlagInv.take (h : FlagInv s) (hfree : (s.mutexes mp).owner = none) :
    FlagInv (s.setMutex mp mutex) := by
  intro t hdefer
  obtain ⟨mp', howner', hflag⟩ := h t hdefer
  have hmp : mp' ≠ mp := by
    rintro rfl
    cases hfree.symm.trans howner'
  exact ⟨mp', by simp [System.setMutex, Function.update_of_ne hmp, howner', hflag]⟩

omit [DecidableEq ι] in
/-- A mutex is given up by its owner, who has put off nothing or has no mark on it. -/
theorem FlagInv.give (h : FlagInv s) (howner : (s.mutexes mp).owner = some t)
    (hflag : (s.mutexes mp).deferred = true → s.deferWaiters t = []) :
    FlagInv (s.setMutex mp mutex) := by
  intro t' hdefer
  obtain ⟨mp', howner', hflag'⟩ := h t' hdefer
  have hmp : mp' ≠ mp := by
    rintro rfl
    obtain rfl : t' = t := Option.some.inj (howner'.symm.trans howner)
    exact hdefer (hflag hflag')
  exact ⟨mp', by simp [System.setMutex, Function.update_of_ne hmp, howner', hflag']⟩

theorem Inv.setMutex (h : Inv s) (hflags : FlagInv (s.setMutex mp mutex)) :
    Inv (s.setMutex mp mutex) where
  queues := ⟨h.queues.nodup, h.queues.mem_iff⟩
  threads t := (h.threads t).same ⟨rfl, rfl, rfl, rfl, rfl⟩ rfl rfl rfl
  flags := hflags

omit [DecidableEq μ] in
theorem Inv.wakeAll (h : Inv s) (t : ι) : Inv (s.wakeAll t) where
  queues := ⟨h.queues.nodup, h.queues.mem_iff⟩
  threads t' := (h.threads t').wakeAll t
  flags := h.flags.wakeAll t

/-- The owner gives the mutex up and releases everything it has put off. -/
theorem Inv.give_wakeAll (h : Inv s) (howner : (s.mutexes mp).owner = some t) :
    Inv ((s.setMutex mp mutex).wakeAll t) := by
  -- the waiters leave the list of the caller before the mark on the mutex goes
  have hempty : (s.wakeAll t).deferWaiters t = [] := by simp [System.wakeAll]
  exact (h.wakeAll t).setMutex ((h.flags.wakeAll t).give howner fun _ => hempty)

theorem Inv.unlock (h : Inv s) (t : ι) (mp : μ) : Inv (s.unlock t mp false).1 := by
  unfold System.unlock
  dsimp only
  by_cases howner : (s.mutexes mp).owner = some t
  · rw [if_neg (not_not.mpr howner)]
    by_cases hcount : (s.mutexes mp).type = .recursive ∧ 0 < (s.mutexes mp).count
    · rw [if_pos hcount]
      exact h.setMutex (h.flags.setMutex rfl rfl)
    · rw [if_neg hcount]
      by_cases hdeferred : (s.mutexes mp).deferred = true
      · rw [if_pos ⟨nofun, hdeferred⟩]
        exact h.give_wakeAll howner
      · rw [if_neg fun hboth => hdeferred hboth.2]
        exact h.setMutex (h.flags.give howner fun hflag => absurd hflag hdeferred)
  · rw [if_pos howner]
    exact h

omit [DecidableEq μ] in
theorem Inv.setThread (h : Inv s) (t : ι) (phase : Phase κ μ)
    (hphase : ∀ place, s.At t place → PhaseInv s t place phase) : Inv (s.setThread t phase) where
  queues := ⟨h.queues.nodup, h.queues.mem_iff⟩
  threads t' := by
    by_cases ht : t' = t
    · subst ht
      obtain ⟨place, hat, -⟩ := h.threads t'
      refine ⟨place, hat.congr rfl rfl rfl, ?_⟩
      have hself : (s.setThread t' phase).threads t' = phase := by simp [System.setThread]
      rw [hself]
      have hphase := hphase place hat
      cases phase <;> exact hphase
    · refine (h.threads t').same ⟨rfl, rfl, rfl, rfl, ?_⟩ rfl rfl rfl
      simp [System.setThread, Function.update_of_ne ht]
  flags := h.flags

omit [DecidableEq μ] in
theorem Inv.wchan_running (h : Inv s) (hrunning : s.threads t = .running) : s.wchan t = none := by
  obtain ⟨place, -, hphase⟩ := h.threads t
  rwa [hrunning] at hphase

theorem Inv.selfLock (h : Inv s) (hrunning : s.threads t = .running) (mp : μ) (timed : Bool) :
    Inv (s.selfLock t mp timed).1 := by
  unfold System.selfLock
  dsimp only
  split
  · split
    · exact h.setMutex (h.flags.setMutex rfl rfl)
    · exact h
  · exact h
  · exact h
  · split
    · exact h
    · exact h.setThread t .deadlocked fun _ _ => h.wchan_running hrunning

theorem Inv.lock (h : Inv s) (hrunning : s.threads t = .running) (mp : μ) (timed : Bool) :
    Inv (s.lock t mp timed).1 := by
  unfold System.lock
  dsimp only
  by_cases howner : (s.mutexes mp).owner = some t
  · rw [if_pos howner]
    exact h.selfLock hrunning mp timed
  · rw [if_neg howner]
    by_cases hfree : (s.mutexes mp).owner = none
    · rw [if_pos hfree]
      exact h.setMutex (h.flags.take hfree)
    · rw [if_neg hfree]
      exact h

theorem Inv.relock (h : Inv s) (t : ι) : Inv (s.relock t).1 := by
  unfold System.relock
  split
  · rename_i mp recurse error hphase
    split_ifs with hfree
    · refine (h.setMutex (h.flags.take hfree)).setThread t .running fun place _ => ?_
      obtain ⟨place, -, hinv⟩ := h.threads t
      rw [hphase] at hinv
      exact hinv.2.1
    · exact h
  · exact h

end Mutexes

section Sleep

variable [DecidableEq κ] [DecidableEq μ] {c : κ} {mp : μ}

omit [DecidableEq κ] in
theorem System.cvUnlock_eq (howner : (s.mutexes mp).owner = some t) : s.cvUnlock t mp =
    s.setMutex mp { s.mutexes mp with count := 0, owner := none, deferred := false } := by
  simp [System.cvUnlock, System.unlock, System.setMutex, howner]

omit [DecidableEq μ] in
/-- The thread goes to sleep on a queue with an empty semaphore. -/
theorem Inv.sleep (h : Inv s) (hchan : s.wchan t = none) (hquiet : ¬ s.Outstanding t)
    (recurse : ℕ) (timed : Bool) : Inv ({ s.sleepqAdd c t with
      mutexObj := Function.update s.mutexObj t (some mp)
      wakeSema := Function.update s.wakeSema t (s.wakeSema t - 1)
      entry := Function.update s.entry t (some (mp, recurse))
      threads := Function.update s.threads t (.sleeping c mp recurse timed) }) where
  queues := by
    have hnotin : ∀ c', t ∉ s.queue c' := by
      intro c' hmem
      cases hchan.symm.trans ((h.queues.mem_iff c' t).mp hmem)
    refine ⟨fun c' => ?_, fun c' t' => ?_⟩
    · by_cases hc : c' = c
      · subst hc
        simpa [System.sleepqAdd] using ⟨hnotin c', h.queues.nodup c'⟩
      · simpa [System.sleepqAdd, Function.update_of_ne hc] using h.queues.nodup c'
    · have hmem := h.queues.mem_iff c' t'
      by_cases ht : t' = t
      · subst ht
        by_cases hc : c' = c
        · subst hc
          simp [System.sleepqAdd]
        · simp [System.sleepqAdd, Function.update_of_ne hc, hnotin c', Ne.symm hc]
      · by_cases hc : c' = c
        · subst hc
          simpa [System.sleepqAdd, Function.update_of_ne ht, ht] using hmem
        · simpa [System.sleepqAdd, Function.update_of_ne ht, Function.update_of_ne hc] using hmem
  threads t' := by
    by_cases ht : t' = t
    · subst ht
      obtain ⟨place, hat, -⟩ := h.threads t'
      rw [hat.outstanding] at hquiet
      have hsema : s.wakeSema t' - 1 = 0 := by
        rw [hat.wakeSema]
        split_ifs <;> rfl
      refine ⟨.nowhere, ⟨?_, ?_, fun t'' => ?_⟩, ?_⟩
      · simpa using hsema
      · simpa [System.sleepqAdd, hat.releasing] using fun hplace => hquiet (.inl hplace)
      · simpa [System.sleepqAdd, hat.deferWaiters] using fun hplace => hquiet (.inr ⟨t'', hplace⟩)
      · simp [PhaseInv, System.Queued, System.sleepqAdd]
    · refine (h.threads t').same ⟨?_, ?_, ?_, ?_, ?_⟩ ?_ rfl rfl <;>
        simp [System.sleepqAdd, Function.update_of_ne ht]
  flags := h.flags

theorem Inv.wait (h : Inv s) (hrunning : s.threads t = .running) (hquiet : ¬ s.Outstanding t)
    (c : κ) (mp : μ) (timed : Bool) : Inv (s.wait t c mp timed).1 := by
  unfold System.wait
  by_cases howner : (s.mutexes mp).owner = some t
  · rw [if_neg (not_not.mpr howner), System.cvUnlock_eq howner]
    refine Inv.sleep (h.give_wakeAll howner) (h.wchan_running hrunning) ?_ _ timed
    obtain ⟨place, hat, -⟩ := h.threads t
    rw [hat.outstanding] at hquiet
    have hat' := hat.wakeAll t
    rw [if_neg fun hplace => hquiet (.inr ⟨t, hplace⟩)] at hat'
    exact fun hout => hquiet (hat'.outstanding.mp hout)
  · rw [if_pos howner]
    exact h

omit [DecidableEq κ] [DecidableEq μ] in
theorem Inv.acquire (h : Inv s) (t : ι) : Inv (s.acquire t) := by
  unfold System.acquire
  split
  · rename_i c mp recurse timed hphase
    split_ifs with hsema
    · obtain ⟨place, hat, hinv⟩ := h.threads t
      rw [hphase] at hinv
      have htoken : place = .token := by
        by_contra hplace
        rw [hat.wakeSema, if_neg hplace] at hsema
        exact absurd hsema (Nat.lt_irrefl 0)
      subst htoken
      -- a thread on a queue has no token, so this one was removed
      obtain ⟨hentry, ⟨-, hplace⟩ | ⟨hremoved, -⟩⟩ := hinv
      · cases hplace
      refine ⟨⟨h.queues.nodup, h.queues.mem_iff⟩, fun t' => ?_, h.flags⟩
      by_cases ht : t' = t
      · subst ht
        refine ⟨.nowhere, ⟨?_, hat.releasing, hat.deferWaiters⟩, ?_⟩
        · simp [hat.wakeSema]
        · simpa [System.setThread, PhaseInv] using ⟨hentry, hremoved⟩
      · refine (h.threads t').same ⟨rfl, rfl, rfl, rfl, ?_⟩ ?_ rfl rfl <;>
          simp [System.setThread, Function.update_of_ne ht]
    · exact h
  · exact h

omit [DecidableEq κ] [DecidableEq μ] in
theorem Inv.expire (h : Inv s) (t : ι) : Inv (s.expire t) := by
  unfold System.expire
  split
  · rename_i c mp recurse hphase
    obtain ⟨place, hat, hinv⟩ := h.threads t
    rw [hphase] at hinv
    refine h.setThread t _ fun place' hat' => ?_
    obtain ⟨hentry, ⟨hqueued, rfl⟩ | ⟨hremoved, -⟩⟩ := hinv
    · exact ⟨hentry, .inl ⟨rfl, hqueued, hat'.unique hat⟩⟩
    · exact ⟨hentry, .inr hremoved⟩
  · exact h

omit [DecidableEq κ] [DecidableEq μ] in
theorem Inv.leave (hqueues : QueueInv s) (hothers : ∀ t' ≠ t, ThreadInv s t') (hflags : FlagInv s)
    (hat : s.At t place) (hchan : s.wchan t = none) {recurse : ℕ} {error : Code}
    (hentry : s.entry t = some (mp, recurse)) (hsignalled : error = .ok → s.signalled t = true) :
    Inv { s.setThread t (.relocking mp recurse error) with
      mutexObj := Function.update s.mutexObj t none } where
  queues := ⟨hqueues.nodup, hqueues.mem_iff⟩
  threads t' := by
    by_cases ht : t' = t
    · subst ht
      refine ⟨place, hat.congr rfl rfl rfl, ?_⟩
      simpa [System.setThread, PhaseInv] using ⟨hentry, hchan, hsignalled⟩
    · refine (hothers t' ht).same ⟨rfl, ?_, rfl, rfl, ?_⟩ rfl rfl rfl <;>
        simp [System.setThread, Function.update_of_ne ht]
  flags := hflags

omit [DecidableEq μ] in
/-- The tests after `Sleep`: a thread that got the semaphore is not on its queue. -/
theorem Inv.check (h : Inv s) (t : ι) : Inv (s.check t) := by
  unfold System.check
  split
  · rename_i c mp recurse acquired hphase
    obtain ⟨place, hat, hinv⟩ := h.threads t
    rw [hphase] at hinv
    by_cases hchan : s.wchan t = none
    · rw [if_pos hchan]
      refine Inv.leave h.queues (fun t' _ => h.threads t') h.flags hat hchan hinv.1 fun _ => ?_
      obtain ⟨-, ⟨-, hqueued, -⟩ | hremoved⟩ := hinv
      · cases hchan.symm.trans hqueued.1
      · exact hremoved.2
    · rw [if_neg hchan]
      obtain ⟨hentry, ⟨rfl, hqueued, -⟩ | hremoved⟩ := hinv
      · rw [if_pos nofun]
        have hqueues := h.queues.sleepqRemove hqueued.1
        have hothers : ∀ t' ≠ t, ThreadInv (s.sleepqRemove c t) t' := by
          intro t' ht
          refine (h.threads t').same ⟨?_, rfl, rfl, rfl, rfl⟩ rfl rfl rfl
          simp [System.sleepqRemove, Function.update_of_ne ht]
        have hgone : (s.sleepqRemove c t).wchan t = none := by simp [System.sleepqRemove]
        exact Inv.leave hqueues hothers h.flags (hat.congr rfl rfl rfl) hgone hentry nofun
      · exact absurd hremoved.1 hchan
  · exact h

omit [DecidableEq κ] [DecidableEq μ] in
theorem Inv.release (h : Inv s) (td : ι) : Inv (s.release td) := by
  unfold System.release
  split_ifs with hmem
  · refine ⟨⟨h.queues.nodup, h.queues.mem_iff⟩, fun t' => ?_, h.flags⟩
    obtain ⟨place, hat, hphase⟩ := h.threads t'
    by_cases ht : t' = td
    · subst ht
      obtain rfl := hat.mem_releasing.mp hmem
      refine ⟨.token, ⟨?_, ?_, hat.deferWaiters⟩,
        SameThread.phaseInv ⟨rfl, rfl, rfl, rfl, rfl⟩ (by simp) hphase⟩
      · simp [hat.wakeSema]
      · simp [hat.releasing]
    · refine ⟨place, ⟨?_, ?_, hat.deferWaiters⟩,
        SameThread.phaseInv ⟨rfl, rfl, rfl, rfl, rfl⟩ Iff.rfl hphase⟩
      · simp [Function.update_of_ne ht, hat.wakeSema]
      · simp only [List.count_erase_of_ne ht, hat.releasing]
  · exact h

theorem Inv.step (h : Inv s) {op : Op ι κ μ} (henabled : s.Enabled op)
    (hwaits : s.WaitsAfterRelease op) : Inv (s.step op).1 := by
  cases op with
  | lock t mp timed => exact h.lock henabled mp timed
  | unlock t mp => exact h.unlock t mp
  | wait t c mp timed => exact h.wait henabled hwaits c mp timed
  | acquire t => exact h.acquire t
  | expire t => exact h.expire t
  | check t => exact h.check t
  | relock t => exact h.relock t
  | signal t c => exact h.signal t c
  | broadcast t c => exact h.broadcast t c
  | release td => exact h.release td

omit [DecidableEq κ] [DecidableEq μ] in
theorem inv_create (types : μ → PthreadMutexType) : Inv (System.create types : System ι κ μ) where
  queues := ⟨fun _ => List.nodup_nil, fun _ _ => by simp [System.create]⟩
  threads _ := ⟨.nowhere, ⟨rfl, rfl, fun _ => rfl⟩, rfl⟩
  flags _ hdefer := absurd rfl hdefer

theorem Reachable.inv (h : Reachable s) : Inv s := by
  induction h with
  | create types => exact inv_create types
  | step _ henabled hwaits ih => exact ih.step henabled hwaits

end Sleep

/-- What the waits on condition variables promise in one state. -/
structure Delivers [DecidableEq κ] [DecidableEq μ] (s : System ι κ μ) : Prop where
  no_abort : ∀ t, s.threads t ≠ .unreachable
  success : ∀ t, (s.step (.relock t)).2 = some .ok → s.signalled t = true
  woken : ∀ t c mp recurse timed, s.threads t = .sleeping c mp recurse timed →
    s.signalled t = true → 0 < s.wakeSema t ∨ t ∈ s.releasing ∨
      ∃ t' mp', t ∈ s.deferWaiters t' ∧ (s.mutexes mp').owner = some t' ∧
        (s.mutexes mp').deferred = true
  flushed : ∀ t mp, (s.mutexes mp).owner = some t → (s.mutexes mp).deferred = true →
    ((s.step (.unlock t mp)).1.mutexes mp).owner = none →
    ∀ td ∈ s.deferWaiters t, td ∈ (s.step (.unlock t mp)).1.releasing
  owns : ∀ t code, (s.step (.relock t)).2 = some code →
    ∃ mp recurse, s.entry t = some (mp, recurse) ∧
      ((s.step (.relock t)).1.mutexes mp).owner = some t ∧
      ((s.step (.relock t)).1.mutexes mp).count = recurse

section Delivery

variable [DecidableEq κ] [DecidableEq μ]

omit [DecidableEq κ] in
/-- A `Wait` that returns was waiting for its mutex, which is free. -/
theorem System.relock_returns {code : Code} (h : (s.relock t).2 = some code) :
    ∃ mp recurse, s.threads t = .relocking mp recurse code ∧ (s.mutexes mp).owner = none ∧
      (s.relock t).1 = (s.setMutex mp
        { s.mutexes mp with owner := some t, count := recurse }).setThread t .running := by
  unfold System.relock at h ⊢
  cases hphase : s.threads t with
  | relocking mp recurse error =>
    simp only [hphase] at h ⊢
    split_ifs at h ⊢ with hfree
    cases h
    exact ⟨mp, recurse, rfl, hfree, rfl⟩
  | _ => simp [hphase] at h

omit [DecidableEq κ] [DecidableEq μ] in
/-- A thread that sleeps although it was removed has its release before it. -/
theorem Inv.woken (h : Inv s) {c : κ} {mp : μ} {recurse : ℕ} {timed : Bool}
    (hphase : s.threads t = .sleeping c mp recurse timed) (hsignalled : s.signalled t = true) :
    0 < s.wakeSema t ∨ t ∈ s.releasing ∨ ∃ t' mp', t ∈ s.deferWaiters t' ∧
      (s.mutexes mp').owner = some t' ∧ (s.mutexes mp').deferred = true := by
  obtain ⟨place, hat, hinv⟩ := h.threads t
  rw [hphase] at hinv
  obtain ⟨-, ⟨hqueued, -⟩ | ⟨-, hplace⟩⟩ := hinv
  · cases hsignalled.symm.trans hqueued.2.2
  · cases place with
    | nowhere => exact absurd rfl hplace
    | token => exact .inl (by simp [hat.wakeSema])
    | releasing => exact .inr (.inl (hat.mem_releasing.mpr rfl))
    | deferred t' =>
      have hmem := (hat.mem_deferWaiters t').mpr rfl
      obtain ⟨mp', howner, hflag⟩ := h.flags t' (List.ne_nil_of_mem hmem)
      exact .inr (.inr ⟨t', mp', hmem, howner, hflag⟩)

omit [DecidableEq κ] in
/-- The last unlock of a marked mutex starts the releases that its owner has put off. -/
theorem System.unlock_flushes {mp : μ} (howner : (s.mutexes mp).owner = some t)
    (hflag : (s.mutexes mp).deferred = true)
    (hfree : ((s.unlock t mp false).1.mutexes mp).owner = none) (hmem : td ∈ s.deferWaiters t) :
    td ∈ (s.unlock t mp false).1.releasing := by
  unfold System.unlock at hfree ⊢
  dsimp only at hfree ⊢
  rw [if_neg (not_not.mpr howner)] at hfree ⊢
  split_ifs at hfree ⊢ with hcount hdeferred
  · simp [System.setMutex, howner] at hfree
  · exact List.mem_append_right _ hmem
  · exact absurd ⟨nofun, hflag⟩ hdeferred

/-- If no thread waits again before its last promised release is done, then the waits neither abort
nor lose a wakeup, and give the mutex back as it was. -/
theorem Reachable.waits_deliver (h : Reachable s) : Delivers s where
  no_abort t hphase := by
    obtain ⟨place, -, hinv⟩ := h.inv.threads t
    rwa [hphase] at hinv
  success t hreturn := by
    obtain ⟨mp, recurse, hphase, -, -⟩ := System.relock_returns hreturn
    obtain ⟨place, -, hinv⟩ := h.inv.threads t
    rw [hphase] at hinv
    exact hinv.2.2 rfl
  woken _ _ _ _ _ := h.inv.woken
  flushed _ _ howner hflag hfree _ hmem := System.unlock_flushes howner hflag hfree hmem
  owns t code hreturn := by
    obtain ⟨mp, recurse, hphase, -, heq⟩ := System.relock_returns hreturn
    obtain ⟨place, -, hinv⟩ := h.inv.threads t
    rw [hphase] at hinv
    refine ⟨mp, recurse, hinv.1, ?_⟩
    rw [System.step, heq]
    simp [System.setMutex, System.setThread]

end Delivery

theorem Reachable.next [DecidableEq κ] [DecidableEq μ] (op : Op ι κ μ) (h : Reachable s)
    (henabled : s.Enabled op) (hwaits : s.WaitsAfterRelease op) : Reachable (s.step op).1 :=
  .step h henabled hwaits

/-- One thread waits with a recursive mutex that it has locked twice, another one signals it and
unlocks. -/
theorem waits_deliver_signal : ∃ s : System Bool Unit Unit,
    s = (System.create fun _ => .recursive).run [.lock false () false, .lock false () false,
      .wait false () () false, .lock true () false, .signal true (), .unlock true (),
      .release false, .acquire false, .check false] ∧
    (s.step (.relock false)).2 = some .ok ∧ Delivers s := by
  refine ⟨_, rfl, by decide, Reachable.waits_deliver ?_⟩
  refine .next (.check false) ?_ trivial trivial
  refine .next (.acquire false) ?_ trivial trivial
  refine .next (.release false) ?_ trivial trivial
  refine .next (.unlock true ()) ?_ rfl trivial
  refine .next (.signal true ()) ?_ rfl trivial
  refine .next (.lock true () false) ?_ rfl trivial
  refine .next (.wait false () () false) ?_ rfl ?_
  · refine .next (.lock false () false) ?_ rfl trivial
    exact .step (.create _) rfl trivial
  · rintro (hmem | ⟨t, hmem⟩) <;> cases hmem

/-- A timeout overtakes a release that was put off. The thread waits again, and the old release
wakes it while it is on the queue. -/
theorem late_release_aborts : ¬ ∀ (ops : List (Op Bool Unit Unit)),
    (System.create fun _ => .errorCheck).EnabledRun ops →
    ∀ t, ((System.create fun _ => .errorCheck).run ops).threads t ≠ .unreachable := by
  intro h
  refine h [.lock false () false, .wait false () () true, .lock true () false, .signal true (),
    .expire false, .check false, .unlock true (), .relock false, .wait false () () false,
    .release false, .acquire false, .check false] ?_ false (by decide)
  exact ⟨rfl, rfl, rfl, rfl, trivial, trivial, rfl, trivial, rfl, trivial, trivial, trivial,
    trivial⟩

end PS4Droid.Threads.Condvar
