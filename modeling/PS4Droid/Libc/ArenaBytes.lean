import PS4Droid.Foundations.Bytes
import PS4Droid.Libc.ArenaInvariant

/-!
# The bytes of a reallocation

`Arena::Realloc` again, now with the memory that the arena hands out. The arena keeps its own lists
outside that memory, so the only access is the `std::memcpy` with which a block is moved.
-/

namespace PS4Droid.Libc

open OrderedMap PS4Droid.Partition Bytes

namespace Arena

variable (a : Arena) (mem : ℕ → UInt8)

/-- Allocate a new block, copy the old one to it and free that. -/
def moveBytes (addr oldSize newSize : ℕ) : Except Abort (Arena × (ℕ → UInt8) × ℕ) := do
  let (a, replacement) ← a.allocateLocked newSize defaultAlignment
  if replacement = 0 then pure (a, mem, 0)
  else
    let mem := copyAt mem replacement oldSize fun i => mem (addr + i)
    pure (← a.freeLocked addr oldSize, mem, replacement)

/-- The memory is not touched by a call that changes the lists only. -/
def withBytes (result : Except Abort (Arena × ℕ)) : Except Abort (Arena × (ℕ → UInt8) × ℕ) := do
  let (a, pointer) ← result
  pure (a, mem, pointer)

def reallocBytes (pointer newSize : ℕ) : Except Abort (Arena × (ℕ → UInt8) × ℕ) :=
  if pointer = 0 then withBytes mem (a.allocate newSize defaultAlignment)
  else if newSize = 0 then do pure ((← a.free pointer).1, mem, 0)
  else
    match get? a.allocations pointer with
    | none => .ok (a, mem, 0)
    | some oldSize =>
      if newSize = oldSize then .ok (a, mem, pointer)
      else if newSize < oldSize then withBytes mem (a.shrink pointer oldSize newSize)
      else
        let extraSize := newSize - oldSize
        let tailOffset := add64 (sub64 pointer a.base) oldSize
        match get? a.freeBlocks tailOffset with
        | some tailSize =>
          if extraSize ≤ tailSize then
            withBytes mem (a.growInPlace pointer newSize tailOffset tailSize extraSize)
          else a.moveBytes mem pointer oldSize newSize
        | none => a.moveBytes mem pointer oldSize newSize

variable {a mem} {p s n : ℕ}

/-! ### Without the bytes -/

/-- A call without its memory. -/
def lists (result : Except Abort (Arena × (ℕ → UInt8) × ℕ)) : Except Abort (Arena × ℕ) :=
  result.map fun r => (r.1, r.2.2)

theorem lists_withBytes (result : Except Abort (Arena × ℕ)) :
    lists (withBytes mem result) = result := by
  cases result <;> rfl

theorem lists_moveBytes (addr oldSize newSize : ℕ) :
    lists (a.moveBytes mem addr oldSize newSize) = a.move addr oldSize newSize := by
  unfold moveBytes move
  cases a.allocateLocked newSize defaultAlignment with
  | error e => rfl
  | ok r =>
    obtain ⟨a₁, replacement⟩ := r
    change lists (if replacement = 0 then _ else _) = if replacement = 0 then _ else _
    split_ifs
    · rfl
    · cases a₁.freeLocked addr oldSize <;> rfl

/-- With the memory left out it is the reallocation of the lists. -/
theorem lists_reallocBytes (a : Arena) (mem : ℕ → UInt8) (pointer newSize : ℕ) :
    lists (a.reallocBytes mem pointer newSize) = a.realloc pointer newSize := by
  unfold reallocBytes realloc
  split_ifs with hnull hzero
  · exact lists_withBytes _
  · cases a.free pointer <;> rfl
  · cases get? a.allocations pointer with
    | none => rfl
    | some oldSize =>
      dsimp only
      split_ifs with heq hlt
      · rfl
      · exact lists_withBytes _
      · cases get? a.freeBlocks (add64 (sub64 pointer a.base) oldSize) with
        | none => exact lists_moveBytes _ _ _
        | some tailSize =>
          dsimp only
          split_ifs
          · exact lists_withBytes _
          · exact lists_moveBytes _ _ _

/-! ### The outcomes -/

/-- The block of `s` bytes at `p` has become one of `n` bytes at `q`. -/
structure Resized (a : Arena) (mem : ℕ → UInt8) (p s n : ℕ) (a' : Arena) (mem' : ℕ → UInt8)
    (q : ℕ) :
    Prop where
  kept : Kept a a'
  owned : (q, n) ∈ a'.allocations
  bytes : ∀ i, i < min s n → mem' (q + i) = mem (p + i)
  others : ∀ e ∈ a.allocations, e.1 ≠ p → e ∈ a'.allocations ∧ SameOn mem mem' e.1 e.2

theorem Resized.inPlace {a' : Arena} (h : a.Sound) (hmem : (p, s) ∈ a.allocations)
    (hkept : Kept a a')
    (hal : a'.allocations = assign a.allocations p n) : Resized a mem p s n a' mem p where
  kept := hkept
  owned := hal ▸ mem_reassign h hmem
  bytes := fun _ _ => rfl
  others := by
    intro e he hne
    refine ⟨?_, .refl _ _ _⟩
    rw [hal]
    exact (perm_reassign h.sorted hmem n).mem_iff.mpr (.tail _ (mem_erase_iff.mpr ⟨he, hne⟩))

theorem Allocated.apart {alignment size q : ℕ} {a₁ : Arena} (hall : Allocated a alignment size a₁ q)
    {e : ℕ × ℕ} (he : e ∈ a.allocations) : Apart (q, max 1 size) e := by
  have hperm := hall.allocations ▸ perm_assign hall.fresh (max 1 size)
  have hnew : (q, max 1 size) ∈ a₁.allocations := hperm.mem_iff.mpr (.head _)
  have hold : e ∈ a₁.allocations := hperm.mem_iff.mpr (.tail _ he)
  refine (hall.sound.apart hnew).apart_head (List.mem_append_right _ ?_)
  exact mem_erase_iff.mpr ⟨hold, hall.fresh e he⟩

/-- The block moves: its replacement is allocated while it is still there. -/
theorem moveBytes_ok (h : a.Sound) (hmem : (p, s) ∈ a.allocations) (hlt : s < n) :
    a.moveBytes mem p s n = .ok (a, mem, 0) ∨
      ∃ a' mem' q, a.moveBytes mem p s n = .ok (a', mem', q) ∧ q ≠ 0 ∧
        Resized a mem p s n a' mem' q := by
  unfold moveBytes
  rcases allocateLocked_ok h (dvd_refl defaultAlignment) n with heq | ⟨a₁, q, heq, hall⟩
  · left
    rw [heq]
    rfl
  · right
    have hmax : max 1 n = n := by omega
    have hperm := hall.allocations ▸ perm_assign hall.fresh (max 1 n)
    rw [hmax] at hperm
    have hmem₁ : (p, s) ∈ a₁.allocations := hperm.mem_iff.mpr (.tail _ hmem)
    obtain ⟨a₂, hfree, hkept, hal⟩ := freeLocked_ok hall.sound hmem₁
    refine ⟨a₂, copyAt mem q s fun i => mem (p + i), q, ?_, hall.pos.ne', ?_⟩
    · rw [heq]
      have hpos : ¬ q = 0 := hall.pos.ne'
      change (if q = 0 then _ else _) = _
      rw [if_neg hpos, hfree]
      rfl
    · refine ⟨⟨hkept.sound, hkept.base.trans hall.base, hkept.capacity.trans hall.capacity⟩, ?_, ?_,
        ?_⟩
      · rw [hal, mem_erase_iff]
        exact ⟨hperm.mem_iff.mpr (.head _), fun heq => hall.fresh (p, s) hmem heq.symm⟩
      · intro i hi
        rw [copyAt, if_pos (by omega), Nat.add_sub_cancel_left]
      · intro e he hne
        refine ⟨?_, fun x hx => copyAt_outside ?_⟩
        · rw [hal, mem_erase_iff]
          exact ⟨hperm.mem_iff.mpr (.tail _ he), hne⟩
        · have hap := hall.apart he
          simp only [Apart, hmax] at hap
          omega

theorem reallocBytes_live (h : a.Sound) (mem : ℕ → UInt8) (hmem : (p, s) ∈ a.allocations)
    (hn : 0 < n) :
    a.reallocBytes mem p n = .ok (a, mem, 0) ∨
      ∃ a' mem' q, a.reallocBytes mem p n = .ok (a', mem', q) ∧ q ≠ 0 ∧
        Resized a mem p s n a' mem' q := by
  obtain ⟨hlo, hhi, -⟩ := h.bounds hmem
  have hbase := h.base_pos
  have htop := h.top
  unfold reallocBytes
  rw [if_neg (by omega), if_neg (by omega), get?_eq_some_of_mem h.sorted hmem]
  dsimp only
  split_ifs with heq hlt
  · right
    subst heq
    refine ⟨a, mem, p, rfl, by omega, h.kept, hmem, fun _ _ => rfl, fun e he _ => ⟨he, .refl _ _ _⟩⟩
  · obtain ⟨a', hrun, hkept, hal⟩ := shrink_ok h hmem hn hlt
    rw [hrun]
    exact .inr ⟨a', mem, p, rfl, by omega, .inPlace h hmem hkept hal⟩
  · have hsub : sub64 p a.base = p - a.base := sub64_eq (by omega) hlo
    have hadd : add64 (p - a.base) s = p - a.base + s := add64_eq (by omega)
    have hmove : a.moveBytes mem p s n = .ok (a, mem, 0) ∨ _ := moveBytes_ok h hmem (by omega)
    rw [hsub, hadd]
    cases htail : get? a.freeBlocks (p - a.base + s) with
    | none => exact hmove
    | some t =>
      dsimp only
      split_ifs with hle
      · obtain ⟨a', hrun, hkept, hal⟩ := growInPlace_ok h hmem (mem_of_get? h.freeList.sorted htail)
          (by omega) hle
        rw [hrun]
        exact .inr ⟨a', mem, p, rfl, by omega, .inPlace h hmem hkept hal⟩
      · exact hmove

end Arena

/-- In every run and with any bytes in memory, a reallocation to at least one byte either changes
nothing and returns the null pointer, as it does for a pointer that is not live, or the new block
has the old bytes and every other allocation is as it was. -/
theorem Reachable.realloc_bytes {base capacity flags : ℕ} {a : Arena}
    (haccept : acceptsRange base capacity flags)
    (hreach : Reachable (Arena.create base capacity) a) (mem : ℕ → UInt8) {p n : ℕ} (hp : p ≠ 0)
    (hn : 0 < n) :
    ∃ a' mem' q, a.reallocBytes mem p n = .ok (a', mem', q) ∧
      (q = 0 → a' = a ∧ mem' = mem) ∧
      (get? a.allocations p = none → q = 0) ∧
      ∀ s, get? a.allocations p = some s → q ≠ 0 →
        Partition a'.blocks base (base + capacity) ∧ get? a'.allocations q = some n ∧
        (∀ i, i < min s n → mem' (q + i) = mem (p + i)) ∧
        ∀ p' s', p' ≠ p → get? a.allocations p' = some s' →
          get? a'.allocations p' = some s' ∧ SameOn mem mem' p' s' := by
  have hkept := hreach.kept (Arena.create_sound haccept)
  cases hget : get? a.allocations p with
  | none =>
    refine ⟨a, mem, 0, ?_, fun _ => ⟨rfl, rfl⟩, fun _ => rfl, by simp⟩
    rw [Arena.reallocBytes, if_neg hp, if_neg (by omega), hget]
  | some s =>
    have hmem := mem_of_get? hkept.sound.sorted hget
    rcases Arena.reallocBytes_live hkept.sound mem hmem hn with heq | ⟨a', mem', q, heq, hq, hres⟩
    · exact ⟨a, mem, 0, heq, fun _ => ⟨rfl, rfl⟩, nofun, fun _ _ hne => absurd rfl hne⟩
    · refine ⟨a', mem', q, heq, fun h => absurd h hq, nofun, ?_⟩
      rintro s' hs -
      obtain rfl := Option.some.inj hs
      have hsorted := hres.kept.sound.sorted
      refine ⟨?_, get?_eq_some_of_mem hsorted hres.owned, hres.bytes, ?_⟩
      · rw [← show a'.base = base from hres.kept.base.trans hkept.base,
          ← show a'.capacity = capacity from hres.kept.capacity.trans hkept.capacity]
        exact hres.kept.sound.freeList.partition
      · intro p' s' hne hs'
        obtain ⟨hmem', hsame⟩ := hres.others _ (mem_of_get? hkept.sound.sorted hs') hne
        exact ⟨get?_eq_some_of_mem hsorted hmem', hsame⟩

/-- A block of 33 bytes with another one behind it moves to get 64 bytes. -/
theorem Reachable.realloc_bytes_move :
    ∃ a, Reachable (Arena.create 0x1000 0x1000) a ∧ a.allocations = [(0x1000, 33), (0x1030, 16)] ∧
      ∀ mem : ℕ → UInt8, ∃ a' mem', a.reallocBytes mem 0x1000 64 = .ok (a', mem', 0x1040) ∧
        get? a'.allocations 0x1040 = some 64 ∧
        (∀ i, i < 33 → mem' (0x1040 + i) = mem (0x1000 + i)) ∧ SameOn mem mem' 0x1030 16 := by
  let a₁ : Arena := ⟨0x1000, 0x1000, [(33, 4063)], [(0x1000, 33)]⟩
  let a : Arena := ⟨0x1000, 0x1000, [(33, 15), (64, 4032)], [(0x1000, 33), (0x1030, 16)]⟩
  have hrun₁ : (Call.malloc 33).run (Arena.create 0x1000 0x1000) = .ok (a₁, 0x1000) := by
    decide +kernel
  have hrun : (Call.malloc 16).run a₁ = .ok (a, 0x1030) := by decide +kernel
  have hreach : Reachable (Arena.create 0x1000 0x1000) a := .call _ (.call _ .refl hrun₁) hrun
  have haccept : acceptsRange 0x1000 0x1000 0 := by decide
  refine ⟨a, hreach, rfl, fun mem => ?_⟩
  obtain ⟨a', mem', q, heq, -, -, hres⟩ :=
    hreach.realloc_bytes haccept mem (p := 0x1000) (n := 64) (by decide) (by decide)
  have hlists := a.lists_reallocBytes mem 0x1000 64
  have hq : (a.realloc 0x1000 64).map (·.2) = .ok 0x1040 := by decide +kernel
  rw [← hlists, heq] at hq
  obtain rfl : q = 0x1040 := Except.ok.inj hq
  obtain ⟨-, howned, hbytes, hothers⟩ := hres 33 rfl (by decide)
  exact ⟨a', mem', heq, howned, hbytes, (hothers 0x1030 16 (by decide) rfl).2⟩

/-- The null pointer is not live, but reallocating it allocates. -/
theorem not_realloc_bytes_null : ¬∀ (base capacity flags : ℕ) (a : Arena) (mem : ℕ → UInt8)
    (p n : ℕ), acceptsRange base capacity flags → Reachable (Arena.create base capacity) a → 0 < n →
      get? a.allocations p = none → a.reallocBytes mem p n = .ok (a, mem, 0) := by
  intro h
  have heq := h 0x1000 0x1000 0 (Arena.create 0x1000 0x1000) (fun _ => 0) 0 1 (by decide) .refl
    (by decide) rfl
  have hlists := (Arena.create 0x1000 0x1000).lists_reallocBytes (fun _ => 0) 0 1
  rw [heq] at hlists
  revert hlists
  decide +kernel

end PS4Droid.Libc
