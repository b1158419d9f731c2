import PS4Droid.Libc.ArenaInvariant

/-!
# Ranges of guest memory spaces

Every arena with an owner has an entry of its range, and that entry keeps the range taken: as a
live one, or as a tombstone whose weak reference has not expired. A new arena is made only beside
all of them, so the arenas that have an owner never share a byte.
-/

namespace PS4Droid.Libc

open OrderedMap

/-!
### The registry

`MspaceCreate`, `MspaceDestroy` and the operations on a space, in the steps other threads can see.
A handle owns its arena until it is destroyed; an operation owns the arenas it has resolved until
it ends. An arena object is a number, its place in the list of all arenas ever made, so that the
weak reference of a destroyed handle is the number of an arena that may have no owner left.
-/

structure HandleEntry where
  arena : Option ℕ
  retiredArena : Option ℕ
  base : ℕ
  capacity : ℕ
  deriving DecidableEq

/-- The tombstone that `MspaceDestroy` leaves of an entry. -/
def HandleEntry.retire (entry : HandleEntry) (arena : ℕ) : HandleEntry :=
  { entry with arena := none, retiredArena := some arena }

/-- An operation in progress, with the arenas it owns. -/
inductive Operation where
  /-- The handle is resolved and the call is still to be done on the arena. -/
  | resolved (arena : ℕ) (call : Call)
  | worked (arena : ℕ) (result : ℕ)
  /-- `MspaceMallocUsableSize` with the arenas it has still to ask. -/
  | scanning (arenas : List ℕ) (pointer : ℕ) (rest : List ℕ)
  | reported (arenas : List ℕ) (size : ℕ)
  deriving DecidableEq

def Operation.held : Operation → List ℕ
  | .resolved arena _ => [arena]
  | .worked arena _ => [arena]
  | .scanning arenas _ _ => arenas
  | .reported arenas _ => arenas

structure Registry where
  handles : List (ℕ × HandleEntry)
  arenas : List Arena
  operations : List Operation
  deriving DecidableEq

def rangesOverlap (firstBase firstCapacity secondBase secondCapacity : ℕ) : Bool :=
  firstBase < add64 secondBase secondCapacity && secondBase < add64 firstBase firstCapacity

namespace Registry

variable (s : Registry)

def init : Registry := ⟨[], [], []⟩

/-- Some handle or some operation in progress owns the arena. -/
def owned (arena : ℕ) : Bool :=
  s.handles.any (fun entry => entry.2.arena = some arena) ||
    s.operations.any (fun operation => arena ∈ operation.held)

/-- An empty weak reference counts as expired. -/
def expired : Option ℕ → Bool
  | none => true
  | some arena => !s.owned arena

def resolveArena (handle : ℕ) : Option ℕ :=
  if handle = 0 then none else (get? s.handles handle).bind HandleEntry.arena

/-- The range is still in use by a live arena, or by one that an operation has not released. -/
def rangeTaken (base capacity : ℕ) : Bool :=
  s.handles.any fun entry =>
    (entry.2.arena.isSome || !s.expired entry.2.retiredArena) &&
      rangesOverlap base capacity entry.2.base entry.2.capacity

/-- `MspaceCreate`, where `handle` is the address of the new entry. -/
def create (base capacity flags handle : ℕ) : Registry × ℕ :=
  if !acceptsRange base capacity flags then (s, 0)
  else if s.rangeTaken base capacity then (s, 0)
  else
    let entry : HandleEntry := ⟨some s.arenas.length, none, base, capacity⟩
    ({ s with
      handles := assign s.handles handle entry
      arenas := s.arenas ++ [.create base capacity] }, handle)

def destroy (handle : ℕ) : Registry × ℕ :=
  if handle = 0 then (s, 1)
  else
    match get? s.handles handle with
    | none => (s, 1)
    | some entry =>
      match entry.arena with
      | none => (s, 1)
      | some arena =>
        ({ s with handles := assign s.handles handle (entry.retire arena) }, 0)

/-- `MspaceMemalign` looks at the alignment before it resolves the handle. -/
def rejects : Call → Bool
  | .memalign alignment _ => !isPowerOfTwo alignment
  | _ => false

def resolve (handle : ℕ) (call : Call) : Registry :=
  if rejects call then s
  else
    match s.resolveArena handle with
    | none => s
    | some arena => { s with operations := s.operations ++ [.resolved arena call] }

/-- `MspaceMallocUsableSize` takes a share of every live arena. -/
def collect (pointer : ℕ) : Registry :=
  if pointer = 0 then s
  else
    let arenas := s.handles.filterMap fun entry => entry.2.arena
    { s with operations := s.operations ++ [.scanning arenas pointer arenas] }

/-- The next part of an operation under the mutex of one arena; nothing for one that is done. -/
def work (index : ℕ) : Option Registry :=
  match s.operations[index]? with
  | some (.resolved arena call) =>
    match s.arenas[arena]? with
    | none => none
    | some a =>
      match call.run a with
      | .error _ => none
      | .ok (a, result) =>
        some { s with
          arenas := s.arenas.set arena a
          operations := s.operations.set index (.worked arena result) }
  | some (.scanning arenas pointer (arena :: rest)) =>
    match s.arenas[arena]? with
    | none => none
    | some a =>
      let operation := if a.usableSize pointer ≠ 0 then
        Operation.reported arenas (a.usableSize pointer) else .scanning arenas pointer rest
      some { s with operations := s.operations.set index operation }
  | some (.scanning arenas _ []) =>
    some { s with operations := s.operations.set index (.reported arenas 0) }
  | _ => none

/-- An operation that is done gives its arenas back, one at a time. -/
def release (index : ℕ) : Option Registry :=
  match s.operations[index]? with
  | some (.worked _ _) => some { s with operations := s.operations.eraseIdx index }
  | some (.reported [] _) => some { s with operations := s.operations.eraseIdx index }
  | some (.reported (_ :: arenas) size) =>
    some { s with operations := s.operations.set index (.reported arenas size) }
  | _ => none

end Registry

inductive Event where
  | create (base capacity flags handle : ℕ)
  | destroy (handle : ℕ)
  | resolve (handle : ℕ) (call : Call)
  | collect (pointer : ℕ)
  | work (index : ℕ)
  | release (index : ℕ)
  deriving DecidableEq

/-- A new entry has an address that no other entry has, because no entry is ever deleted. -/
def Registry.step (s : Registry) : Event → Option Registry
  | .create base capacity flags handle =>
    if handle = 0 ∨ (get? s.handles handle).isSome then none
    else some (s.create base capacity flags handle).1
  | .destroy handle => some (s.destroy handle).1
  | .resolve handle call => some (s.resolve handle call)
  | .collect pointer => some (s.collect pointer)
  | .work index => s.work index
  | .release index => s.release index

/-- Any order of steps of any number of threads. -/
inductive Registry.Steps : Registry → Registry → Prop where
  | refl (s : Registry) : Steps s s
  | step {s s₁ s₂ : Registry} (event : Event) (h : Steps s s₁) (hstep : s₁.step event = some s₂) :
      Steps s s₂

/-! ### The invariant -/

namespace Registry

variable {s s' : Registry}

/-- The bytes of an arena. -/
def range (s : Registry) (id : ℕ) : Option (ℕ × ℕ) :=
  (s.arenas[id]?).map fun a => (a.base, a.capacity)

variable {id base capacity index : ℕ} {operation : Operation} {b : ℕ × ℕ} {a a' : Arena}
  {event : Event}

theorem owned_iff : s.owned id ↔
    (∃ handle entry, (handle, entry) ∈ s.handles ∧ entry.arena = some id) ∨
      ∃ operation ∈ s.operations, id ∈ operation.held := by
  simp [owned]

structure Sound (s : Registry) : Prop where
  sorted : Sorted s.handles
  arenas : ∀ a ∈ s.arenas, a.Sound
  listed : ∀ id, s.owned id → ∃ handle entry, (handle, entry) ∈ s.handles ∧
    (entry.arena = some id ∨ entry.arena = none ∧ entry.retiredArena = some id) ∧
    s.range id = some (entry.base, entry.capacity)
  apart : ∀ id id' b b', s.owned id → s.owned id' → id ≠ id' → s.range id = some b →
    s.range id' = some b' → Apart b b'

theorem init_sound : init.Sound := by
  refine ⟨List.Pairwise.nil, by simp [init], ?_, ?_⟩
  · intro id hid
    simp [init, owned] at hid
  · intro id id' b b' hid
    simp [init, owned] at hid

/-- A step that makes no arena and gives no arena its first owner. -/
theorem Sound.frame (h : s.Sound) (hsorted : Sorted s'.handles)
    (harenas : ∀ a ∈ s'.arenas, a.Sound) (hrange : ∀ id, s'.range id = s.range id)
    (howned : ∀ id, s'.owned id → s.owned id)
    (hentry : ∀ handle entry, (handle, entry) ∈ s.handles → ∃ entry',
      (handle, entry') ∈ s'.handles ∧ (entry' = entry ∨ ∃ id, entry.arena = some id ∧
        entry' = entry.retire id)) : s'.Sound := by
  refine ⟨hsorted, harenas, fun id hid => ?_, fun id id' b b' hid hid' hne hb hb' => ?_⟩
  · obtain ⟨handle, entry, hmem, hlink, hbase⟩ := h.listed id (howned id hid)
    obtain ⟨entry', hmem', rfl | ⟨id', hid', rfl⟩⟩ := hentry handle entry hmem
    · exact ⟨handle, entry', hmem', hlink, (hrange id).trans hbase⟩
    · refine ⟨handle, _, hmem', .inr ⟨rfl, ?_⟩, (hrange id).trans hbase⟩
      rcases hlink with hlive | ⟨hdead, -⟩
      · exact hid'.symm.trans hlive
      · simp [hdead] at hid'
  · exact h.apart id id' b b' (howned id hid) (howned id' hid') hne (hrange id ▸ hb)
      (hrange id' ▸ hb')

theorem Sound.operations (h : s.Sound) {operations : List Operation}
    (hheld : ∀ operation ∈ operations, ∀ id ∈ operation.held, s.owned id) :
    Sound { s with operations := operations } := by
  refine h.frame h.sorted h.arenas (fun _ => rfl) (fun id hid => ?_) fun handle entry hmem =>
    ⟨entry, hmem, .inl rfl⟩
  rcases owned_iff.mp hid with hlive | ⟨operation, hop, hid⟩
  · exact owned_iff.mpr (.inl hlive)
  · exact hheld operation hop id hid

theorem owned_of_held (hop : operation ∈ s.operations) (hid : id ∈ operation.held) : s.owned id :=
  owned_iff.mpr (.inr ⟨operation, hop, hid⟩)

/-! ### Creating -/

theorem apart_of_not_overlap {base' capacity' : ℕ} (htop : base + capacity < 2 ^ 64)
    (htop' : base' + capacity' < 2 ^ 64) (h : rangesOverlap base capacity base' capacity' = false) :
    Apart (base, capacity) (base', capacity') := by
  simp only [rangesOverlap, add64_eq htop, add64_eq htop', Bool.and_eq_false_iff,
    decide_eq_false_iff_not, not_lt] at h
  simp only [Apart]
  omega

theorem exists_of_range (h : s.range id = some b) :
    ∃ a, s.arenas[id]? = some a ∧ (a.base, a.capacity) = b := by
  simpa [range] using h

theorem Sound.top (h : s.Sound) (hb : s.range id = some b) : b.1 + b.2 < 2 ^ 64 := by
  obtain ⟨a, ha, rfl⟩ := exists_of_range hb
  exact (h.arenas a (List.mem_of_getElem? ha)).top

/-- A range that is not taken lies beside every arena that has an owner. -/
theorem Sound.apart_of_not_taken (h : s.Sound)
    (htop : base + capacity < 2 ^ 64) (htaken : s.rangeTaken base capacity = false)
    (hid : s.owned id) (hb : s.range id = some b) : Apart (base, capacity) b := by
  obtain ⟨handle, entry, hmem, hlink, hrange⟩ := h.listed id hid
  have heq : b = (entry.base, entry.capacity) := Option.some.inj (hb.symm.trans hrange)
  have huse : (entry.arena.isSome || !s.expired entry.retiredArena) = true := by
    rcases hlink with hlive | ⟨-, hretired⟩
    · simp [hlive]
    · simp [hretired, expired, hid]
  have hoverlap : rangesOverlap base capacity entry.base entry.capacity = false := by
    simp only [rangeTaken, List.any_eq_false] at htaken
    have := htaken (handle, entry) hmem
    simpa [huse] using this
  rw [heq]
  have htop' := h.top hb
  rw [heq] at htop'
  exact apart_of_not_overlap htop htop' hoverlap

theorem Sound.create (h : s.Sound) {flags handle : ℕ}
    (hfresh : ∀ e ∈ s.handles, e.1 ≠ handle) : (s.create base capacity flags handle).1.Sound := by
  unfold Registry.create
  split_ifs with haccept htaken
  · exact h
  · exact h
  rw [Bool.not_eq_true] at htaken
  rw [Bool.not_eq_true', Bool.not_eq_false] at haccept
  have hnew := Arena.create_sound haccept
  set entry : HandleEntry := ⟨some s.arenas.length, none, base, capacity⟩ with hentry
  set s' : Registry := { s with
    handles := assign s.handles handle entry
    arenas := s.arenas ++ [.create base capacity] } with hs'
  have hperm : s'.handles.Perm ((handle, entry) :: s.handles) := perm_assign hfresh entry
  have hlt : ∀ id b, s.range id = some b → id < s.arenas.length := by
    intro id b hb
    obtain ⟨a, ha, -⟩ := exists_of_range hb
    exact (List.getElem?_eq_some_iff.mp ha).1
  have hold : ∀ id b, s.range id = some b → s'.range id = some b := by
    intro id b hb
    simp only [range, hs', List.getElem?_append_left (hlt id b hb)]
    exact hb
  have hself : s'.range s.arenas.length = some (base, capacity) := by
    simp [range, hs', Arena.create]
  -- Only the new arena gets its first owner.
  have howned : ∀ id, s'.owned id → s.owned id ∨ id = s.arenas.length := by
    intro id hid
    rcases owned_iff.mp hid with ⟨k, e, hmem, harena⟩ | ⟨op, hop, hheld⟩
    · rcases List.mem_cons.mp (hperm.mem_iff.mp hmem) with heq | hmem
      · rw [(Prod.mk.inj heq).2] at harena
        exact .inr (Option.some.inj harena).symm
      · exact .inl (owned_iff.mpr (.inl ⟨k, e, hmem, harena⟩))
    · exact .inl (owned_of_held hop hheld)
  have hrange : ∀ id b, s.owned id → s'.range id = some b → s.range id = some b := by
    intro id b hid hb
    obtain ⟨_, e, -, -, he⟩ := h.listed id hid
    rw [hold id _ he] at hb
    rwa [← hb]
  refine ⟨sorted_assign h.sorted _ _, ?_, fun id hid => ?_, fun id id' b b' hid hid' hne hb hb' =>
    ?_⟩
  · intro a ha
    rcases List.mem_append.mp ha with ha | ha
    · exact h.arenas a ha
    · rw [List.mem_singleton.mp ha]
      exact hnew
  · rcases howned id hid with hid | rfl
    · obtain ⟨k, e, hmem, hlink, he⟩ := h.listed id hid
      exact ⟨k, e, hperm.mem_iff.mpr (.tail _ hmem), hlink, hold id _ he⟩
    · exact ⟨handle, entry, hperm.mem_iff.mpr (.head _), .inl rfl, hself⟩
  · rcases howned id hid with hid | rfl <;> rcases howned id' hid' with hid' | rfl
    · exact h.apart id id' b b' hid hid' hne (hrange id b hid hb) (hrange id' b' hid' hb')
    · rw [hself] at hb'
      rw [← Option.some.inj hb']
      exact (h.apart_of_not_taken hnew.top htaken hid (hrange id b hid hb)).symm
    · rw [hself] at hb
      rw [← Option.some.inj hb]
      exact h.apart_of_not_taken hnew.top htaken hid' (hrange id' b' hid' hb')
    · exact absurd rfl hne

/-! ### Destroying -/

theorem destroy_eq (handle : ℕ) : s.destroy handle = (s, 1) ∨
    ∃ entry arena, get? s.handles handle = some entry ∧ entry.arena = some arena ∧
      s.destroy handle =
        ({ s with handles := assign s.handles handle (entry.retire arena) }, 0) := by
  unfold destroy
  split_ifs
  · exact .inl rfl
  · cases hget : get? s.handles handle with
    | none => exact .inl rfl
    | some entry =>
      cases harena : entry.arena with
      | none => simp [harena]
      | some arena => exact .inr ⟨entry, arena, rfl, harena, by simp [harena]⟩

theorem Sound.destroy (h : s.Sound) (handle : ℕ) : (s.destroy handle).1.Sound := by
  rcases destroy_eq (s := s) handle with heq | ⟨entry, arena, hget, harena, heq⟩
  · rw [heq]
    exact h
  · rw [heq]
    have hmem := mem_of_get? h.sorted hget
    have hperm := perm_reassign h.sorted hmem (entry.retire arena)
    refine h.frame (sorted_assign h.sorted _ _) h.arenas (fun _ => rfl) (fun id hid => ?_) ?_
    · rcases owned_iff.mp hid with ⟨k, e, hmem', he⟩ | ⟨op, hop, hheld⟩
      · rcases List.mem_cons.mp (hperm.mem_iff.mp hmem') with heq | hmem'
        · rw [(Prod.mk.inj heq).2] at he
          exact absurd he (by simp [HandleEntry.retire])
        · exact owned_iff.mpr (.inl ⟨k, e, (mem_erase_iff.mp hmem').1, he⟩)
      · exact owned_of_held hop hheld
    · intro k e hmem'
      by_cases hk : k = handle
      · subst hk
        have he : e = entry :=
          Option.some.inj ((get?_eq_some_of_mem h.sorted hmem').symm.trans hget)
        subst he
        exact ⟨_, hperm.mem_iff.mpr (.head _), .inr ⟨arena, harena, rfl⟩⟩
      · exact ⟨e, hperm.mem_iff.mpr (.tail _ (mem_erase_iff.mpr ⟨hmem', hk⟩)), .inl rfl⟩

/-! ### Operations -/

theorem owned_of_resolveArena {handle : ℕ} (h : s.Sound)
    (hresolve : s.resolveArena handle = some id) : s.owned id := by
  unfold resolveArena at hresolve
  split_ifs at hresolve
  obtain ⟨entry, hget, harena⟩ := Option.bind_eq_some_iff.mp hresolve
  exact owned_iff.mpr (.inl ⟨handle, entry, mem_of_get? h.sorted hget, harena⟩)

theorem Sound.start (h : s.Sound) (hheld : ∀ id ∈ operation.held, s.owned id) :
    Sound { s with operations := s.operations ++ [operation] } := by
  refine h.operations fun op hop id hid => ?_
  rcases List.mem_append.mp hop with hop | hop
  · exact owned_of_held hop hid
  · rw [List.mem_singleton.mp hop] at hid
    exact hheld id hid

theorem Sound.resolve (h : s.Sound) (handle : ℕ) (call : Call) : (s.resolve handle call).Sound := by
  unfold Registry.resolve
  split_ifs
  · exact h
  · cases hresolve : s.resolveArena handle with
    | none => exact h
    | some id =>
      refine h.start fun id' hid' => ?_
      rw [List.mem_singleton.mp hid']
      exact owned_of_resolveArena h hresolve

theorem Sound.collect (h : s.Sound) (pointer : ℕ) : (s.collect pointer).Sound := by
  unfold Registry.collect
  split_ifs
  · exact h
  · refine h.start fun id hid => ?_
    obtain ⟨⟨handle, entry⟩, hmem, harena⟩ := List.mem_filterMap.mp hid
    exact owned_iff.mpr (.inl ⟨handle, entry, hmem, harena⟩)

theorem Sound.continue (h : s.Sound) {operation' : Operation}
    (hop : s.operations[index]? = some operation)
    (hheld : ∀ id ∈ operation'.held, id ∈ operation.held) :
    Sound { s with operations := s.operations.set index operation' } := by
  refine h.operations fun op hop' id hid => ?_
  rcases List.mem_or_eq_of_mem_set hop' with hop' | rfl
  · exact owned_of_held hop' hid
  · exact owned_of_held (List.mem_of_getElem? hop) (hheld id hid)

theorem Sound.update (h : s.Sound) (ha : s.arenas[id]? = some a)
    (hkept : Arena.Kept a a') : Sound { s with arenas := s.arenas.set id a' } := by
  refine h.frame h.sorted (fun b hb => ?_) (fun id' => ?_) (fun id' hid' => hid')
    fun handle entry hmem => ⟨entry, hmem, .inl rfl⟩
  · rcases List.mem_or_eq_of_mem_set hb with hb | rfl
    · exact h.arenas b hb
    · exact hkept.sound
  · simp only [range]
    by_cases hid : id = id'
    · subst hid
      have hlt := (List.getElem?_eq_some_iff.mp ha).1
      rw [List.getElem?_set_self hlt, ha]
      simp [hkept.base, hkept.capacity]
    · rw [List.getElem?_set_ne hid]

theorem Sound.work (h : s.Sound) (hwork : s.work index = some s') : s'.Sound := by
  unfold Registry.work at hwork
  split at hwork
  case h_1 id call hop =>
    cases ha : s.arenas[id]? with
    | none => simp [ha] at hwork
    | some a =>
      obtain ⟨a', p, hrun, hkept, -⟩ := call.run_ok (h.arenas a (List.mem_of_getElem? ha))
      simp only [ha, hrun, Option.some.injEq] at hwork
      subst hwork
      exact (h.update ha hkept).continue hop fun _ hid => hid
  case h_2 arenas pointer id rest hop =>
    cases ha : s.arenas[id]? with
    | none => simp [ha] at hwork
    | some a =>
      simp only [ha, Option.some.injEq] at hwork
      subst hwork
      refine h.continue hop fun id' hid' => ?_
      split_ifs at hid' <;> exact hid'
  case h_3 arenas pointer hop =>
    obtain rfl := Option.some.inj hwork
    exact h.continue hop fun _ hid => hid
  case h_4 => simp at hwork

theorem Sound.release (h : s.Sound) (hrelease : s.release index = some s') : s'.Sound := by
  have herase : Sound { s with operations := s.operations.eraseIdx index } := by
    refine h.operations fun op hop id hid => ?_
    exact owned_of_held (List.mem_of_mem_eraseIdx hop) hid
  unfold Registry.release at hrelease
  split at hrelease
  case h_1 =>
    obtain rfl := Option.some.inj hrelease
    exact herase
  case h_2 =>
    obtain rfl := Option.some.inj hrelease
    exact herase
  case h_3 id arenas size hop =>
    obtain rfl := Option.some.inj hrelease
    exact h.continue hop fun _ hid => .tail _ hid
  case h_4 => simp at hrelease

/-! ### Runs -/

theorem Sound.step (h : s.Sound) (hstep : s.step event = some s') : s'.Sound := by
  cases event with
  | create base capacity flags handle =>
    simp only [Registry.step] at hstep
    split_ifs at hstep with hused
    obtain rfl := Option.some.inj hstep
    have hnone : get? s.handles handle = none := by
      simpa using fun h => hused (.inr h)
    exact h.create (get?_eq_none hnone)
  | destroy handle =>
    obtain rfl := Option.some.inj hstep
    exact h.destroy handle
  | resolve handle call =>
    obtain rfl := Option.some.inj hstep
    exact h.resolve handle call
  | collect pointer =>
    obtain rfl := Option.some.inj hstep
    exact h.collect pointer
  | work index => exact h.work hstep
  | release index => exact h.release hstep

theorem Steps.sound (h : s.Sound) (hsteps : Steps s s') : s'.Sound := by
  induction hsteps with
  | refl => exact h
  | step event hsteps hstep ih => exact ih.step hstep

/-! ### Tombstones -/

def Tombstone (s : Registry) (handle : ℕ) : Prop :=
  ∃ entry, (handle, entry) ∈ s.handles ∧ entry.arena = none

theorem Tombstone.resolveArena {handle : ℕ} (h : s.Sound) (ht : s.Tombstone handle) :
    s.resolveArena handle = none := by
  obtain ⟨entry, hmem, harena⟩ := ht
  unfold Registry.resolveArena
  rw [get?_eq_some_of_mem h.sorted hmem]
  simp [harena]

theorem Tombstone.of_destroy {handle : ℕ} (h : s.Sound) (hcode : (s.destroy handle).2 = 0) :
    (s.destroy handle).1.Tombstone handle := by
  rcases destroy_eq (s := s) handle with heq | ⟨entry, arena, hget, harena, heq⟩
  · rw [heq] at hcode
    exact absurd hcode (by simp)
  · rw [heq]
    have hmem := mem_of_get? h.sorted hget
    exact ⟨entry.retire arena, (perm_reassign h.sorted hmem _).mem_iff.mpr (.head _), rfl⟩

/-- No entry is deleted, and its address is not used for another one. -/
theorem Tombstone.step {handle : ℕ} (h : s.Sound) (ht : s.Tombstone handle)
    (hstep : s.step event = some s') : s'.Tombstone handle := by
  obtain ⟨entry, hmem, harena⟩ := ht
  have hsame : s'.handles = s.handles → s'.Tombstone handle := by
    intro heq
    exact ⟨entry, heq ▸ hmem, harena⟩
  cases event with
  | create base capacity flags handle' =>
    simp only [Registry.step] at hstep
    split_ifs at hstep with hused
    obtain rfl := Option.some.inj hstep
    unfold Registry.create at hsame ⊢
    split_ifs at hsame ⊢
    · exact hsame rfl
    · exact hsame rfl
    · have hnone : get? s.handles handle' = none := by
        simpa using fun h => hused (.inr h)
      exact ⟨entry, (perm_assign (get?_eq_none hnone) _).mem_iff.mpr (.tail _ hmem), harena⟩
  | destroy handle' =>
    obtain rfl := Option.some.inj hstep
    rcases destroy_eq (s := s) handle' with heq | ⟨entry', arena, hget, harena', heq⟩
    · exact hsame (by rw [heq])
    · rw [heq]
      have hne : handle ≠ handle' := by
        rintro rfl
        have hentry : entry = entry' :=
          Option.some.inj ((get?_eq_some_of_mem h.sorted hmem).symm.trans hget)
        rw [hentry, harena'] at harena
        exact absurd harena (by simp)
      have hperm := perm_reassign h.sorted (mem_of_get? h.sorted hget) (entry'.retire arena)
      exact ⟨entry, hperm.mem_iff.mpr (.tail _ (mem_erase_iff.mpr ⟨hmem, hne⟩)), harena⟩
  | resolve handle' call =>
    obtain rfl := Option.some.inj hstep
    refine hsame ?_
    unfold Registry.resolve
    split_ifs
    · rfl
    · split <;> rfl
  | collect pointer =>
    obtain rfl := Option.some.inj hstep
    refine hsame ?_
    unfold Registry.collect
    split_ifs <;> rfl
  | work index =>
    refine hsame ?_
    simp only [Registry.step, Registry.work] at hstep
    repeat' split at hstep
    all_goals (cases hstep <;> rfl)
  | release index =>
    refine hsame ?_
    simp only [Registry.step, Registry.release] at hstep
    split at hstep <;> cases hstep <;> rfl

theorem Tombstone.steps {handle : ℕ} (h : s.Sound) (ht : s.Tombstone handle)
    (hsteps : Steps s s') : s'.Tombstone handle := by
  induction hsteps with
  | refl => exact ht
  | step event hsteps hstep ih => exact ih.step (hsteps.sound h) hstep

theorem inBlock_of_usableSize (h : a.Sound) {pointer : ℕ}
    (hsize : a.usableSize pointer ≠ 0) : InBlock (a.base, a.capacity) pointer := by
  unfold Arena.usableSize at hsize
  split_ifs at hsize
  · exact absurd rfl hsize
  · cases hget : get? a.allocations pointer with
    | none => simp [hget] at hsize
    | some n =>
      obtain ⟨hlo, hhi, hn⟩ := h.bounds (mem_of_get? h.sorted hget)
      exact ⟨hlo, by simp only; omega⟩

/-- The arena `a` is live or still held by an operation. -/
def InUse (s : Registry) (id : ℕ) (a : Arena) : Prop :=
  s.owned id ∧ s.arenas[id]? = some a

theorem Sound.disjoint (h : s.Sound) {id' x : ℕ} (ha : s.InUse id a)
    (ha' : s.InUse id' a') (hx : InBlock (a.base, a.capacity) x)
    (hx' : InBlock (a'.base, a'.capacity) x) : id = id' := by
  by_contra hne
  have hapart := h.apart id id' (a.base, a.capacity) (a'.base, a'.capacity) ha.1 ha'.1 hne
    (by simp [range, ha.2]) (by simp [range, ha'.2])
  simp only [InBlock, Apart] at hx hx' hapart
  omega

/-- Whatever the threads do, two arenas in use have no byte in common, a destroyed handle stays
destroyed, and at most one arena in use reports a pointer as live. -/
theorem Steps.never_alias (hsteps : Steps init s) :
    (∀ id, s.owned id → ∃ a, s.InUse id a) ∧
    (∀ id id' a a', s.InUse id a → s.InUse id' a' → id ≠ id' →
      ∀ x, ¬ (InBlock (a.base, a.capacity) x ∧ InBlock (a'.base, a'.capacity) x)) ∧
    (∀ handle s', (s.destroy handle).2 = 0 → Steps (s.destroy handle).1 s' →
      s'.resolveArena handle = none) ∧
    ∀ pointer id id' a a', s.InUse id a → s.InUse id' a' → a.usableSize pointer ≠ 0 →
      a'.usableSize pointer ≠ 0 → id = id' := by
  have h := hsteps.sound init_sound
  refine ⟨fun id hid => ?_, fun id id' a a' ha ha' hne x hx => ?_,
    fun handle s' hcode hsteps' => ?_, fun pointer id id' a a' ha ha' hsize hsize' => ?_⟩
  · obtain ⟨_, _, -, -, hrange⟩ := h.listed id hid
    obtain ⟨a, ha, -⟩ := exists_of_range hrange
    exact ⟨a, hid, ha⟩
  · exact hne (h.disjoint ha ha' hx.1 hx.2)
  · have ht := Tombstone.of_destroy h hcode
    exact (ht.steps (h.destroy handle) hsteps').resolveArena (hsteps'.sound (h.destroy handle))
  · have hx := inBlock_of_usableSize (h.arenas a (List.mem_of_getElem? ha.2)) hsize
    have hx' := inBlock_of_usableSize (h.arenas a' (List.mem_of_getElem? ha'.2)) hsize'
    exact h.disjoint ha ha' hx hx'

/-- A destroyed arena that an operation has not released, beside a new one. -/
theorem Steps.never_alias_retired : ∃ s, Steps init s ∧
    s.InUse 0 (.create 0x1000 0x1000) ∧ s.InUse 1 (.create 0x2000 0x1000) ∧
    s.resolveArena 1 = none ∧ s.rangeTaken 0x1800 0x1000 ∧
    ∀ x, ¬ (InBlock (0x1000, 0x1000) x ∧ InBlock (0x2000, 0x1000) x) := by
  let live : HandleEntry := ⟨some 0, none, 0x1000, 0x1000⟩
  let first : Arena := .create 0x1000 0x1000
  let s₁ : Registry := ⟨[(1, live)], [first], []⟩
  let s₂ : Registry := { s₁ with operations := [.resolved 0 (.malloc 8)] }
  let s₃ : Registry := { s₂ with handles := [(1, live.retire 0)] }
  let s₄ : Registry := { s₃ with
    handles := [(1, live.retire 0), (2, ⟨some 1, none, 0x2000, 0x1000⟩)]
    arenas := [first, .create 0x2000 0x1000] }
  have h₁ : init.step (.create 0x1000 0x1000 0 1) = some s₁ := by decide
  have h₂ : s₁.step (.resolve 1 (.malloc 8)) = some s₂ := by decide
  have h₃ : s₂.step (.destroy 1) = some s₃ := by decide
  have h₄ : s₃.step (.create 0x2000 0x1000 0 2) = some s₄ := by decide
  have hsteps : Steps init s₄ := .step _ (.step _ (.step _ (.step _ (.refl _) h₁) h₂) h₃) h₄
  have hold : s₄.InUse 0 (.create 0x1000 0x1000) := ⟨by decide, rfl⟩
  have hnew : s₄.InUse 1 (.create 0x2000 0x1000) := ⟨by decide, rfl⟩
  exact ⟨s₄, hsteps, hold, hnew, by decide, by decide,
    hsteps.never_alias.2.1 0 1 _ _ hold hnew (by decide)⟩

end Registry

end PS4Droid.Libc
