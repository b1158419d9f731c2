import PS4Droid.Foundations.Generation
import PS4Droid.GuestCpu.ValidationCache
import PS4Droid.Memory.Maps

/-!
# Cached validations are not stale

The map of virtual areas under `mapping_generation` is a value with a generation. What the callers
of `QueryProtection` hold, what the cache holds and what a lookup finds when it loads the generation
were all seen at an even generation, and so agree.
-/

namespace PS4Droid.GuestCpu

open Memory Generation

/-! ## Who holds the locks -/

/-- Sections of a thread that holds the writer lock. -/
def Task.isExclusive : Task → Bool
  | .locked _ | .change _ _ | .finish | .unlock => true
  | _ => false

/-- Sections of a thread that holds the reader lock. -/
def Task.isShared : Task → Bool
  | .answer _ | .unlockShared => true
  | _ => false

/-- Sections of a thread that changes the map. -/
def Task.isMutating : Task → Bool
  | .change _ _ | .finish => true
  | _ => false

/-- The locks are as the threads hold them. -/
structure Locks (changing : Bool) (mutex : SharedFirstMutex) (held : List Task) : Prop where
  mutating : held.countP Task.isMutating = if changing then 1 else 0
  exclusive : held.countP Task.isExclusive = if mutex.writerActive then 1 else 0
  shared : held.countP Task.isShared = mutex.readers
  apart : mutex.writerActive = true → mutex.readers = 0

section Locks

variable {changing : Bool} {mutex : SharedFirstMutex} {held before after tasks : List Task}
  {task : Task}

theorem isExclusive_of_isMutating (h : task.isMutating = true) : task.isExclusive = true := by
  cases task <;> first | rfl | cases h

theorem Locks.changing_of_mutating (h : Locks changing mutex held) (hmem : task ∈ held)
    (hmutating : task.isMutating = true) : changing = true := by
  have hpos : 0 < held.countP Task.isMutating := List.countP_pos_iff.mpr ⟨task, hmem, hmutating⟩
  rw [h.mutating] at hpos
  cases changing
  · exact absurd hpos (Nat.lt_irrefl 0)
  · rfl

theorem Locks.writer_of_exclusive (h : Locks changing mutex held) (hmem : task ∈ held)
    (hexclusive : task.isExclusive = true) : mutex.writerActive = true := by
  have hpos : 0 < held.countP Task.isExclusive := List.countP_pos_iff.mpr ⟨task, hmem, hexclusive⟩
  rw [h.exclusive] at hpos
  cases hwriter : mutex.writerActive
  · rw [hwriter] at hpos
    exact absurd hpos (Nat.lt_irrefl 0)
  · rfl

theorem Locks.readers_pos (h : Locks changing mutex held) (hmem : task ∈ held)
    (hshared : task.isShared = true) : 0 < mutex.readers := by
  rw [← h.shared]
  exact List.countP_pos_iff.mpr ⟨task, hmem, hshared⟩

theorem Locks.idle (h : Locks changing mutex held) (hwriter : mutex.writerActive = false) :
    changing = false := by
  have hle : held.countP Task.isMutating ≤ held.countP Task.isExclusive :=
    List.countP_mono_left fun _ _ => isExclusive_of_isMutating
  rw [h.mutating, h.exclusive, hwriter] at hle
  cases changing
  · rfl
  · exact absurd hle (by decide)

theorem Locks.idle_of_shared (h : Locks changing mutex held) (hmem : task ∈ held)
    (hshared : task.isShared = true) : changing = false := by
  refine h.idle ?_
  have hpos := h.readers_pos hmem hshared
  cases hwriter : mutex.writerActive
  · rfl
  · rw [h.apart hwriter] at hpos
    exact absurd hpos (Nat.lt_irrefl 0)

/-- Nothing changes before the thread with the writer lock begins. -/
theorem Locks.idle_of_begin (h : Locks changing mutex (before ++ task :: after))
    (hexclusive : task.isExclusive = true) (hmutating : task.isMutating = false) :
    changing = false := by
  have hle : (before ++ after).countP Task.isMutating ≤ (before ++ after).countP Task.isExclusive :=
    List.countP_mono_left fun _ _ => isExclusive_of_isMutating
  have hchanging := h.mutating
  have hone : (if mutex.writerActive then 1 else 0) ≤ 1 := by split <;> decide
  rw [← h.exclusive] at hone
  simp only [List.countP_append, List.countP_cons, hexclusive, hmutating,
    if_true] at hle hchanging hone
  cases changing
  · rfl
  · simp only [if_true, Bool.false_eq_true, if_false] at hchanging
    omega

/-- The locks fit what is held if the sections that follow hold what the section held and has not
given back. -/
theorem Locks.exchange {changing' : Bool} {mutex' : SharedFirstMutex}
    (h : Locks changing mutex (before ++ task :: after))
    (hmutating : tasks.countP Task.isMutating + (if changing then 1 else 0) =
      [task].countP Task.isMutating + (if changing' then 1 else 0))
    (hexclusive : tasks.countP Task.isExclusive + (if mutex.writerActive then 1 else 0) =
      [task].countP Task.isExclusive + (if mutex'.writerActive then 1 else 0))
    (hshared : tasks.countP Task.isShared + mutex.readers = [task].countP Task.isShared +
      mutex'.readers)
    (hapart : mutex'.writerActive = true → mutex'.readers = 0) :
    Locks changing' mutex' (before ++ (tasks ++ after)) := by
  have hsplit : before ++ task :: after = before ++ ([task] ++ after) := rfl
  rw [hsplit] at h
  obtain ⟨hchanging, hwriter, hreaders, -⟩ := h
  simp only [List.countP_append] at hchanging hwriter hreaders
  refine ⟨?_, ?_, ?_, hapart⟩
  all_goals
    simp only [List.countP_append]
    omega

theorem Locks.follow (h : Locks changing mutex (before ++ task :: after))
    (hmutating : tasks.countP Task.isMutating = [task].countP Task.isMutating)
    (hexclusive : tasks.countP Task.isExclusive = [task].countP Task.isExclusive)
    (hshared : tasks.countP Task.isShared = [task].countP Task.isShared) :
    Locks changing mutex (before ++ (tasks ++ after)) :=
  h.exchange (by rw [hmutating]) (by rw [hexclusive]) (by rw [hshared]) h.apart

end Locks

/-! ## What was seen of the map -/

/-- The answer of `QueryProtection` is about an area of the map. -/
def Describes (map : VMAMap) (protection : Protection) : Prop :=
  ∃ entry ∈ map, entry.2.isFree = false ∧
    protection = ⟨entry.2.base, add64 entry.2.base entry.2.size, entry.2.prot⟩

variable {addr searchStart searchEnd size alignment : ℕ}

theorem describes_of_queryProtection {s : MemoryManager} {protection : Protection}
    (h : s.queryProtection addr = .ok (.ok protection)) : Describes s.vmaMap protection := by
  rw [MemoryManager.queryProtection] at h
  split at h
  · cases h
  obtain ⟨⟨key, vma⟩, hfound, h⟩ := bind_ok h
  dsimp only at h
  split at h
  · cases h
  rename_i hfree
  obtain rfl : _ = protection := Except.ok.inj (Except.ok.inj h)
  exact ⟨(key, vma), (OrderedMap.floor_mem (deref_ok hfound)).1, Bool.eq_false_iff.mpr hfree, rfl⟩

/-- A record of a generation and a protection. -/
def Recorded (seen : List (ℕ × VMAMap)) (generation : ℕ) (protection : Protection) : Prop :=
  ∃ map, (generation, map) ∈ seen ∧ Describes map protection

def Entry.protectionOf (entry : Entry) : Protection := ⟨entry.start, entry.stop, entry.protection⟩

/-- All records are of what was seen. -/
structure Records (seen : List (ℕ × VMAMap)) (s : State) (held : List Task) : Prop where
  answers : ∀ answer ∈ s.answers, Recorded seen answer.generation answer.protection
  entries : ∀ entry ∈ s.cache.entries.toList, entry.owner ≠ 0 →
    Recorded seen entry.generation entry.protectionOf
  loads : ∀ owner generation address size required loaded,
    Task.contains owner generation address size required loaded ∈ held → generation % 2 = 0 →
    (generation, loaded) ∈ seen

section Records

variable {seen seen' : List (ℕ × VMAMap)} {s s' : State} {held before after tasks : List Task}
  {task : Task}
  {generation : ℕ}

theorem Recorded.mono (hseen : seen ⊆ seen') {protection : Protection}
    (h : Recorded seen generation protection) : Recorded seen' generation protection := by
  obtain ⟨map, hmem, hdescribes⟩ := h
  exact ⟨map, hseen hmem, hdescribes⟩

theorem Records.mono (hseen : seen ⊆ seen') (h : Records seen s held) : Records seen' s held where
  answers answer hanswer := (h.answers answer hanswer).mono hseen
  entries entry hentry howner := (h.entries entry hentry howner).mono hseen
  loads _ _ _ _ _ _ hmem heven := hseen (h.loads _ _ _ _ _ _ hmem heven)

def Task.isContains : Task → Bool
  | .contains .. => true
  | _ => false

theorem Records.follow (h : Records seen s (before ++ task :: after))
    (hanswers : s'.answers = s.answers)
    (hcache : s'.cache = s.cache) (htasks : tasks.any Task.isContains = false) :
    Records seen s' (before ++ (tasks ++ after)) where
  answers := hanswers ▸ h.answers
  entries := hcache ▸ h.entries
  loads owner generation address size required loaded hmem heven := by
    refine h.loads owner generation address size required loaded ?_ heven
    rcases List.mem_append.mp hmem with hmem | hmem
    · exact List.mem_append_left _ hmem
    rcases List.mem_append.mp hmem with hmem | hmem
    · exact absurd rfl (List.any_eq_false.mp htasks _ hmem)
    · exact List.mem_append_right _ (List.mem_cons_of_mem _ hmem)

theorem mem_entries_store {cache : GuestMemoryValidationCache} {owner start stop : ℕ}
    {protection : UInt32} {entry : Entry}
    (h : entry ∈ (cache.store owner generation start stop protection).entries.toList) :
    entry = ⟨owner, generation, start, stop, protection⟩ ∨ entry ∈ cache.entries.toList := by
  rw [GuestMemoryValidationCache.store, Vector.toList_set] at h
  exact (List.mem_or_eq_of_mem_set h).symm

end Records

/-! ## Runs -/

/-- The map and its generation are those of `a`. -/
structure Represents (a : Guarded VMAMap) (s : State) (held : List Task) : Prop where
  value : a.value = s.manager.vmaMap
  count : a.count = s.generation
  locks : Locks a.changing s.mutex held
  records : Records a.seen s held

theorem poolExpand_vmaMap {s s' : MemoryManager}
    (h : s.poolExpand searchStart searchEnd size alignment = .ok (s', addr)) :
    s'.vmaMap = s.vmaMap := by
  unfold MemoryManager.poolExpand at h
  obtain ⟨⟨key, area⟩, -, h⟩ := bind_ok h
  dsimp only at h
  split at h
  · cases h
    rfl
  · obtain ⟨carved, -, h⟩ := bind_ok h
    cases h
    rfl

theorem allocate_vmaMap {s s' : MemoryManager} {memoryType : ℤ}
    (h : s.allocate searchStart searchEnd size alignment memoryType = .ok (s', addr)) :
    s'.vmaMap = s.vmaMap := by
  unfold MemoryManager.allocate at h
  obtain ⟨⟨key, area⟩, -, h⟩ := bind_ok h
  dsimp only at h
  split at h
  · cases h
    rfl
  · split at h
    · cases h
      rfl
    · obtain ⟨carved, -, h⟩ := bind_ok h
      obtain ⟨merged, -, h⟩ := bind_ok h
      cases h
      rfl

/-- The operations that do not begin a mutation leave the virtual map alone. -/
theorem outcome_vmaMap {op : Operation} (hop : op.mutates = false) (s : MemoryManager) :
    (outcome op s).vmaMap = s.vmaMap := by
  rw [outcome]
  split
  · rename_i hrun
    cases op with
    | allocate =>
      obtain ⟨⟨s', addr⟩, hallocate, hrun⟩ := bind_ok hrun
      cases hrun
      exact allocate_vmaMap hallocate
    | poolExpand =>
      obtain ⟨⟨s', addr⟩, hexpand, hrun⟩ := bind_ok hrun
      cases hrun
      exact poolExpand_vmaMap hexpand
    | _ => cases hop
  · rfl

section Exec

variable {a : Guarded VMAMap} {initial : VMAMap} {s s' : State}
  {held before after tasks : List Task}
  {task : Task} {input : Input}

/-- A section that neither changes the map, the locks and the records, nor hands on a lock. -/
theorem Represents.follow (h : Represents a s (before ++ task :: after))
    (hmap : s'.manager.vmaMap = s.manager.vmaMap) (hgeneration : s'.generation = s.generation)
    (hmutex : s'.mutex = s.mutex) (hanswers : s'.answers = s.answers) (hcache : s'.cache = s.cache)
    (hmutating : tasks.countP Task.isMutating = [task].countP Task.isMutating)
    (hexclusive : tasks.countP Task.isExclusive = [task].countP Task.isExclusive)
    (hshared : tasks.countP Task.isShared = [task].countP Task.isShared)
    (htasks : tasks.any Task.isContains = false) :
    Represents a s' (before ++ (tasks ++ after)) where
  value := h.value.trans hmap.symm
  count := h.count.trans hgeneration.symm
  locks := hmutex ▸ h.locks.follow hmutating hexclusive hshared
  records := h.records.follow hanswers hcache htasks

/-- A section that is held after another has run, and does not follow it, was held before. -/
theorem mem_of_not_follows {t : Task} (hmem : t ∈ before ++ (tasks ++ after)) (hnew : t ∉ tasks) :
    t ∈ before ++ task :: after := by
  simp only [List.mem_append, List.mem_cons] at hmem ⊢
  tauto

theorem exec_represents (ha : Guarded.Reachable initial a)
    (h : Represents a s (before ++ task :: after))
    (hallowed : Allowed s input task) : ∃ a', Guarded.Reachable initial a' ∧
      Represents a' (exec input task s).1 (before ++ ((exec input task s).2 ++ after)) := by
  have hmem : task ∈ before ++ task :: after := List.mem_append_right _ (List.mem_cons_self ..)
  cases task with
  | call op =>
    refine ⟨a, ha, ?_⟩
    rw [exec]
    split
    · exact h.follow rfl rfl rfl rfl rfl rfl rfl rfl rfl
    · exact h.follow rfl rfl rfl rfl rfl rfl rfl rfl rfl
  | lockUnmap op | checks op =>
    refine ⟨a, ha, ?_⟩
    rw [exec]
    split
    all_goals exact h.follow rfl rfl rfl rfl rfl rfl rfl rfl rfl
  | lock op =>
    obtain ⟨hwriter, hreaders⟩ := hallowed
    refine ⟨a, ha, h.value, h.count, ?_, h.records.follow rfl rfl rfl⟩
    exact h.locks.exchange rfl (by rw [hwriter]; rfl) rfl fun _ => hreaders
  | locked op =>
    have hidle := h.locks.idle_of_begin rfl rfl
    rw [exec]
    split
    · refine ⟨_, ha.begin hidle, h.value, congrArg (· + 1) h.count, ?_,
        h.records.follow rfl rfl rfl⟩
      exact h.locks.exchange (by rw [hidle]; rfl) rfl rfl h.locks.apart
    · rename_i hop
      exact ⟨a, ha,
        h.follow (outcome_vmaMap (Bool.eq_false_iff.mpr hop) s.manager) rfl rfl rfl rfl rfl rfl
        rfl rfl⟩
  | change op manager =>
    have hchanging := h.locks.changing_of_mutating hmem rfl
    rw [exec]
    split
    · rename_i manager' _
      exact ⟨_, ha.change manager'.vmaMap hchanging, rfl, h.count, h.locks.follow rfl rfl rfl,
        h.records.follow rfl rfl rfl⟩
    · exact ⟨_, ha.change (outcome op manager).vmaMap hchanging, rfl, h.count,
        h.locks.follow rfl rfl rfl, h.records.follow rfl rfl rfl⟩
  | finish =>
    have hchanging := h.locks.changing_of_mutating hmem rfl
    refine ⟨_, ha.finish hchanging, h.value, congrArg (· + 1) h.count, ?_,
      h.records.follow rfl rfl rfl⟩
    exact h.locks.exchange (by rw [hchanging]; rfl) rfl rfl h.locks.apart
  | unlock =>
    have hwriter := h.locks.writer_of_exclusive hmem rfl
    refine ⟨a, ha, h.value, h.count, ?_, h.records.follow rfl rfl rfl⟩
    exact h.locks.exchange rfl (by rw [hwriter]; rfl) rfl nofun
  | unlockUnmap => exact ⟨a, ha, h.follow rfl rfl rfl rfl rfl rfl rfl rfl rfl⟩
  | queryProtection addr =>
    refine ⟨a, ha, h.value, h.count, ?_, h.records.follow rfl rfl rfl⟩
    refine h.locks.exchange rfl rfl ?_ fun hwriter => ?_
    · show 1 + s.mutex.readers = 0 + (s.mutex.readers + 1)
      omega
    · exact absurd (hwriter.symm.trans hallowed) (by decide)
  | answer addr =>
    have hidle := h.locks.idle_of_shared hmem rfl
    rw [exec]
    split
    · rename_i protection hanswer
      refine ⟨_, ha.see hidle, h.value, h.count, h.locks.follow rfl rfl rfl, ?_⟩
      have hrecords := (h.records.mono (List.subset_cons_self (a.count, a.value) a.seen))
      refine ⟨?_, hrecords.entries, ?_⟩
      · intro answer hanswers
        rcases List.mem_cons.mp hanswers with rfl | hanswers
        · refine ⟨a.value, ?_, h.value ▸ describes_of_queryProtection hanswer⟩
          rw [← h.count]
          exact List.mem_cons_self ..
        · exact hrecords.answers answer hanswers
      · exact (hrecords.follow rfl rfl rfl).loads
    · exact ⟨a, ha, h.follow rfl rfl rfl rfl rfl rfl rfl rfl rfl⟩
  | unlockShared =>
    have hpos := h.locks.readers_pos hmem rfl
    refine ⟨a, ha, h.value, h.count, ?_, h.records.follow rfl rfl rfl⟩
    refine h.locks.exchange rfl rfl ?_ fun hwriter => congrArg (· - 1) (h.locks.apart hwriter)
    show 0 + s.mutex.readers = 1 + (s.mutex.readers - 1)
    omega
  | store owner =>
    refine ⟨a, ha, h.value, h.count, h.locks.follow rfl rfl rfl, h.records.answers, ?_,
      (h.records.follow rfl rfl rfl).loads⟩
    intro entry hentry howner
    rcases mem_entries_store hentry with rfl | hentry
    · exact h.records.answers input.answer hallowed
    · exact h.records.entries entry hentry howner
  | load owner address size required =>
    by_cases heven : s.generation % 2 = 0
    · have hidle : a.changing = false := by
        rw [ha.changing_eq, h.count, heven]
        rfl
      refine ⟨_, ha.see hidle, h.value, h.count, h.locks.follow rfl rfl rfl, ?_⟩
      have hrecords := (h.records.mono (List.subset_cons_self (a.count, a.value) a.seen))
      refine ⟨hrecords.answers, hrecords.entries, ?_⟩
      intro owner' generation' address' size' required' loaded' hloaded heven'
      by_cases hnew : Task.contains owner' generation' address' size' required' loaded' ∈
          (exec input (.load owner address size required) s).2
      · cases List.mem_singleton.mp hnew
        rw [← h.value, ← h.count]
        exact List.mem_cons_self ..
      · exact hrecords.loads _ _ _ _ _ _ (mem_of_not_follows hloaded hnew) heven'
    · refine ⟨a, ha, h.value, h.count, h.locks.follow rfl rfl rfl, h.records.answers,
        h.records.entries, ?_⟩
      intro owner' generation' address' size' required' loaded' hloaded heven'
      by_cases hnew : Task.contains owner' generation' address' size' required' loaded' ∈
          (exec input (.load owner address size required) s).2
      · cases List.mem_singleton.mp hnew
        exact absurd heven' heven
      · exact h.records.loads _ _ _ _ _ _ (mem_of_not_follows hloaded hnew) heven'
  | contains owner generation address size required loaded =>
    exact ⟨a, ha, h.follow rfl rfl rfl rfl rfl rfl rfl rfl rfl⟩

end Exec

theorem represents_of_reachable {manager : MemoryManager} {config : Sections.Config State Task}
    (h : validations.Reachable Sections.anyRun (State.initial manager) config) :
    ∃ a, Guarded.Reachable manager.vmaMap a ∧ Represents a config.state config.held := by
  refine h.held_invariant (P := fun s held => ∃ a, Guarded.Reachable manager.vmaMap a ∧
    Represents a s held)
    ?_ ?_ ?_
  · refine ⟨_, .start, rfl, rfl, ⟨rfl, rfl, rfl, nofun⟩, nofun, ?_, nofun⟩
    intro entry hentry howner
    have hempty : ∀ entry ∈ GuestMemoryValidationCache.empty.entries.toList, entry.owner = 0 := by
      decide
    exact absurd (hempty entry hentry) howner
  · rintro s before after task number hentry ⟨a, ha, hrep⟩
    refine ⟨a, ha, hrep.value, hrep.count, ?_, hrep.records.answers, hrep.records.entries, ?_⟩
    · have hstart : task.isMutating = false ∧ task.isExclusive = false ∧ task.isShared = false := by
        cases task <;> first | exact ⟨rfl, rfl, rfl⟩ | exact hentry.elim
      have hlocks := hrep.locks
      refine ⟨?_, ?_, ?_, hlocks.apart⟩
      · rw [← hlocks.mutating]
        simp [hstart.1]
      · rw [← hlocks.exclusive]
        simp [hstart.2.1]
      · rw [← hlocks.shared]
        simp [hstart.2.2]
    · intro owner generation address size required loaded hmem heven
      refine hrep.records.loads owner generation address size required loaded ?_ heven
      rcases List.mem_append.mp hmem with hmem | hmem
      · exact List.mem_append_left _ hmem
      rcases List.mem_cons.mp hmem with rfl | hmem
      · exact hentry.elim
      · exact List.mem_append_right _ hmem
  · rintro s before after task input hallowed - ⟨a, ha, hrep⟩
    exact exec_represents ha hrep hallowed

theorem contains_spec {cache : GuestMemoryValidationCache} {owner generation address : ℕ}
    {required : UInt32} (h : cache.contains owner generation address size required = true) :
    generation % 2 = 0 ∧ ∃ entry ∈ cache.entries.toList, entry.owner ≠ 0 ∧
      entry.generation = generation ∧
      entry.start ≤ address ∧ address + size ≤ entry.stop ∧
        entry.protection &&& required = required := by
  rw [GuestMemoryValidationCache.contains] at h
  split at h
  · cases h
  rename_i hvalid
  simp only [not_or, not_not] at hvalid
  obtain ⟨entry, hentry, hmatch⟩ := List.any_eq_true.mp h
  simp only [Bool.and_eq_true, beq_iff_eq, decide_eq_true_eq] at hmatch
  obtain ⟨⟨⟨⟨howner, hgeneration⟩, hstart⟩, hstop⟩, hprotection⟩ := hmatch
  exact ⟨hvalid.2.2.2.2, entry, hentry, howner ▸ hvalid.1, hgeneration, hstart, hstop, hprotection⟩

/-- A hit says that when its generation was loaded the whole range lay in one area that was not free
and whose protection includes what is required. -/
theorem hit_not_stale {manager : MemoryManager} {config : Sections.Config State Task}
    (h : validations.Reachable Sections.anyRun (State.initial manager) config)
    {owner generation address size : ℕ} {required : UInt32} {loaded : VMAMap}
    (hheld : .contains owner generation address size required loaded ∈ config.held)
    (hhit : config.state.cache.contains owner generation address size required = true) :
    ∃ entry ∈ loaded, entry.2.isFree = false ∧ entry.2.prot &&& required = required ∧
      ∀ byte, address ≤ byte → byte < address + size →
        entry.2.base ≤ byte ∧ byte < entry.2.base + entry.2.size := by
  obtain ⟨a, ha, hrep⟩ := represents_of_reachable h
  obtain ⟨heven, entry, hentry, howner, rfl, hstart, hstop, hprotection⟩ := contains_spec hhit
  obtain ⟨map, hseen, area, harea, hfree, hdescribes⟩ := hrep.records.entries entry hentry howner
  -- The entry and the lookup saw the map at one generation.
  have hloaded := hrep.records.loads owner _ address size required loaded hheld heven
  obtain rfl : map = loaded := ha.seen_unique hseen hloaded
  rw [Entry.protectionOf, Protection.mk.injEq] at hdescribes
  obtain ⟨hbase, hend, hprot⟩ := hdescribes
  refine ⟨area, harea, hfree, hprot ▸ hprotection, ?_⟩
  intro byte hfirst hlast
  have hle : add64 area.2.base area.2.size ≤ area.2.base + area.2.size := Nat.mod_le _ _
  omega

/-! A reserved range that was given a protection is not free, and nothing is mapped there. -/

/-- A test for the sections; not all that can run pass. -/
def mayRun (s : State) (input : Input) : Task → Bool
  | .call _ | .checks _ => !input.returns
  | .lockUnmap _ => !s.unmapMutex
  | .lock _ => !s.mutex.writerActive && s.mutex.readers == 0
  | .locked op => op.mutates
  | .change op manager => input.partly.isSome || (op.run manager).isOk
  | .queryProtection _ => !s.mutex.writerActive
  | .answer addr => (s.manager.queryProtection addr).isOk
  | .store _ => s.answers.contains input.answer
  | _ => true

theorem allowed_of_mayRun {s : State} {input : Input} {task : Task}
    (h : mayRun s input task = true) :
    Allowed s input task := by
  cases task with
  | call | checks =>
    intro hreturns
    rw [mayRun, hreturns] at h
    cases h
  | lockUnmap | queryProtection => exact Bool.eq_false_iff.mpr (by simpa [mayRun] using h)
  | lock => simpa [mayRun, Allowed] using h
  | locked op =>
    intro hop
    exact absurd (hop.symm.trans h) (by decide)
  | change op manager =>
    intro hpartly
    rw [mayRun, hpartly] at h
    exact h
  | answer => exact h
  | store => exact List.contains_iff_mem.mp h
  | _ => trivial

def isEntry : Task → Bool
  | .call _ | .queryProtection _ | .store _ | .load .. => true
  | _ => false

theorem isEntry_spec {task : Task} (h : isEntry task = true) : task.IsEntry := by
  cases task <;> trivial

def sampleCall (task : Task) (sections : ℕ) : List (Sections.Move Task Input) :=
  .start 0 task :: List.replicate sections
    (.run 0 ⟨false, none, ⟨4, ⟨0x200000000, 0x200004000, 1⟩⟩⟩)

/-- One thread reserves a range, makes it readable, asks for its protection, stores the answer and
loads the generation for a lookup. -/
def sampleRun : List (Sections.Move Task Input) :=
  sampleCall
    (.call (.mapMemory 0x200000000 0x4000 0 0x10 .reserved "anon" false 0xffffffffffffffff 0)) 9 ++
    sampleCall (.call (.protect 0x200000000 0x4000 1)) 8 ++
    sampleCall (.queryProtection 0x200000000) 3 ++
    sampleCall (.store 1) 1 ++ sampleCall (.load 1 0x200000000 16 1) 1

def sampleConfig : Sections.Config State Task :=
  sampleRun.foldl validations.play ⟨State.initial Config.oneRegion.construct, [[]]⟩

theorem sampleConfig_reachable :
    validations.Reachable Sections.anyRun
      (State.initial Config.oneRegion.construct) sampleConfig := by
  have hmoves : validations.checkRun (Sections.testMove (fun _ => isEntry) fun s _ => mayRun s)
      ⟨State.initial Config.oneRegion.construct, [[]]⟩ sampleRun = true := by decide
  refine (Sections.Machine.Reachable.start 1).of_checkRun ?_ sampleRun hmoves
  exact Sections.Machine.legal_of_testMove (fun _ _ => isEntry_spec)
    fun _ _ _ _ h => ⟨allowed_of_mayRun h, trivial⟩

theorem sampleConfig_held :
    sampleConfig.held = [.contains 1 4 0x200000000 16 1 sampleConfig.state.manager.vmaMap] := rfl

theorem sampleConfig_hit : sampleConfig.state.cache.contains 1 4 0x200000000 16 1 = true := by
  decide

theorem hit_not_stale_sample :
    ∃ entry ∈ sampleConfig.state.manager.vmaMap, entry.2.isFree = false ∧ entry.2.prot &&& 1 = 1 ∧
      ∀ byte, 0x200000000 ≤ byte → byte < 0x200000000 + 16 →
        entry.2.base ≤ byte ∧ byte < entry.2.base + entry.2.size :=
  hit_not_stale sampleConfig_reachable
    (sampleConfig_held ▸ List.mem_singleton_self _) sampleConfig_hit

/-- The hit is on a reserved range: no mapped area has the byte. -/
theorem hit_on_reserved :
    validations.Reachable Sections.anyRun (State.initial Config.oneRegion.construct) sampleConfig ∧
    .contains 1 4 0x200000000 16 1 sampleConfig.state.manager.vmaMap ∈ sampleConfig.held ∧
    sampleConfig.state.cache.contains 1 4 0x200000000 16 1 = true ∧
    ∀ entry ∈ sampleConfig.state.manager.vmaMap, entry.2.isMapped = true →
      ¬ (entry.2.base ≤ 0x200000000 ∧ 0x200000000 < entry.2.base + entry.2.size) := by
  refine ⟨sampleConfig_reachable, sampleConfig_held ▸ List.mem_singleton_self _, sampleConfig_hit,
    ?_⟩
  have hareas : sampleConfig.state.manager.vmaMap.all (fun entry => !entry.2.isMapped) = true := by
    decide
  intro entry hentry hmapped
  have harea := List.all_eq_true.mp hareas entry hentry
  rw [hmapped] at harea
  cases harea

end PS4Droid.GuestCpu
