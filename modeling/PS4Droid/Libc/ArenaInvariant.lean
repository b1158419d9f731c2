import PS4Droid.Libc.Arena

/-!
# The free blocks and the allocations of an arena

The free blocks, moved to their addresses, and the live allocations partition the bytes of the
arena. Inserting a free block keeps this, whichever neighbours it is joined with; every operation
of the arena cuts a block into pieces and inserts those that stay free.
-/

namespace PS4Droid.Libc

open OrderedMap PS4Droid.Partition

/-! ### Arithmetic -/

variable {alignment allocSize padding p : ℕ}

theorem isPowerOfTwo_iff : isPowerOfTwo alignment ↔ alignment.isPowerOfTwo := by
  rw [← Nat.ne_zero_and_sub_one_eq_zero_iff_isPowerOfTwo]
  simp [isPowerOfTwo]

theorem alignUp_spec {value aligned : ℕ} (hv : value < 2 ^ 64)
    (h : alignUp value alignment = some aligned) :
    value ≤ aligned ∧ aligned < 2 ^ 64 ∧ alignment ∣ aligned := by
  unfold alignUp at h
  split_ifs at h with hp
  obtain ⟨k, rfl⟩ := isPowerOfTwo_iff.mp (by simpa using hp)
  simp only [Nat.and_two_pow_sub_one_eq_mod] at h
  have hlt := Nat.mod_lt value (Nat.two_pow_pos k)
  split_ifs at h with hmod hmax
  · obtain rfl := Option.some.inj h
    exact ⟨le_rfl, hv, Nat.dvd_of_mod_eq_zero hmod⟩
  · obtain rfl := Option.some.inj h
    have hle := Nat.mod_le value (2 ^ k)
    refine ⟨by omega, by omega, ?_⟩
    have hdiv := Nat.div_add_mod value (2 ^ k)
    exact ⟨value / 2 ^ k + 1, by rw [Nat.mul_add]; omega⟩

/-! ### Inserting a free block -/

/-- A free block at its address. -/
def shift (base : ℕ) (b : ℕ × ℕ) : ℕ × ℕ := (base + b.1, b.2)

/-- No block begins where another ends. -/
def NonAdjacent (freeBlocks : List (ℕ × ℕ)) : Prop :=
  ∀ e ∈ freeBlocks, ∀ f ∈ freeBlocks, e.1 + e.2 ≠ f.1

section Insert

variable {base lo hi : ℕ} {blocks l r rest : List (ℕ × ℕ)} {o n : ℕ}

theorem joinNext_spec (hs : Sorted blocks) (ha : Around blocks l (o, n) r) (hn : o + n < 2 ^ 64)
    (hr : ∀ f ∈ r, n + f.2 < 2 ^ 64) :
    (joinNext blocks o n = (l ++ (o, n) :: r, n) ∧ ∀ f ∈ r.head?, o + n ≠ f.1) ∨
    ∃ m r', r = (o + n, m) :: r' ∧ joinNext blocks o n = (l ++ (o, n + m) :: r', n + m) := by
  unfold joinNext
  rw [show next blocks o = r.head? from ha.next]
  cases r with
  | nil => exact .inl ⟨by simp [ha.eq], by simp⟩
  | cons f r' =>
    obtain ⟨p, m⟩ := f
    have hm := hr (p, m) (.head _)
    simp only [List.head?_cons, add64_eq hn, add64_eq hm]
    split_ifs with hp
    · subst hp
      refine .inr ⟨m, r', rfl, ?_⟩
      have haround := (ha.assign_around (n + m)).succ (ha.sorted_assign hs _)
      have herase : erase (assign blocks o (n + m)) (o + n) = (l ++ [(o, n + m)]) ++ r' :=
        haround.erase
      rw [herase]
      simp
    · refine .inl ⟨by rw [ha.eq], ?_⟩
      rintro f hf
      simp only [Option.mem_def, Option.some.injEq] at hf
      rw [← hf]
      exact hp

theorem joinPrev_spec (hs : Sorted blocks) (ha : Around blocks l (o, n) r)
    (hl : ∀ e ∈ l, e.1 + e.2 < 2 ^ 64 ∧ e.2 + n < 2 ^ 64) :
    (joinPrev blocks o n = l ++ (o, n) :: r ∧ ∀ e ∈ l.getLast?, e.1 + e.2 ≠ o) ∨
    ∃ p m l', l = l' ++ [(p, m)] ∧ p + m = o ∧ joinPrev blocks o n = l' ++ (p, m + n) :: r := by
  unfold joinPrev
  rw [show prev blocks o = l.getLast? from ha.prev]
  rcases List.eq_nil_or_concat l with rfl | ⟨l', e, rfl⟩
  · exact .inl ⟨by simp [ha.eq], by simp⟩
  · obtain ⟨p, m⟩ := e
    obtain ⟨hp, hm⟩ := hl (p, m) (by simp)
    simp only [List.concat_eq_append] at ha ⊢
    simp only [List.getLast?_concat, add64_eq hp, add64_eq hm]
    split_ifs with ho
    · refine .inr ⟨p, m, l', rfl, ho, ?_⟩
      have hpred := ha.pred hs
      have haround := (hpred.assign_around (m + n)).succ (hpred.sorted_assign hs _)
      have herase : erase (assign blocks p (m + n)) o = (l' ++ [(p, m + n)]) ++ r :=
        haround.erase
      rw [herase]
      simp
    · refine .inl ⟨ha.eq, ?_⟩
      simpa using ho

/-- The free blocks of an arena whose other blocks are `rest`. -/
structure FreeList (base lo hi : ℕ) (freeBlocks rest : List (ℕ × ℕ)) : Prop where
  sorted : Sorted freeBlocks
  nonAdjacent : NonAdjacent freeBlocks
  partition : Partition (freeBlocks.map (shift base) ++ rest) lo hi

variable {e : ℕ × ℕ} {freeBlocks : List (ℕ × ℕ)}

theorem shift_mem (he : e ∈ blocks) : shift base e ∈ blocks.map (shift base) :=
  List.mem_map_of_mem he

/-- Two entries of an ordered list of free blocks do not overlap. -/
theorem apart_of_key_ne {f : ℕ × ℕ} (hp : Partition (blocks.map (shift base) ++ rest) lo hi)
    (he : e ∈ blocks) (hf : f ∈ blocks) (hne : e.1 ≠ f.1) : e.1 + e.2 ≤ f.1 ∨ f.1 + f.2 ≤ e.1 := by
  have h := hp.apart_of_ne (c := shift base e) (d := shift base f)
    (List.mem_append_left _ (shift_mem he)) (List.mem_append_left _ (shift_mem hf))
    (fun heq => hne (by simpa [shift] using congrArg Prod.fst heq))
  simp only [Apart, shift] at h
  omega

theorem pos_of_mem (hp : Partition (blocks.map (shift base) ++ rest) lo hi)
    (he : e ∈ blocks) : 0 < e.2 :=
  hp.pos (shift base e) (List.mem_append_left _ (shift_mem he))

theorem end_le_of_mem (hp : Partition (blocks.map (shift base) ++ rest) lo hi)
    (he : e ∈ blocks) : base + e.1 + e.2 ≤ hi :=
  (hp.bounds (List.mem_append_left _ (shift_mem he))).2

theorem partition_join {m : ℕ}
    (hp : Partition ((l ++ (o, n) :: (o + n, m) :: r).map (shift base) ++ rest) lo hi) :
    Partition ((l ++ (o, n + m) :: r).map (shift base) ++ rest) lo hi := by
  have hperm : ((l ++ (o, n) :: (o + n, m) :: r).map (shift base) ++ rest).Perm
      ((base + o, n) :: (base + o + n, m) :: ((l ++ r).map (shift base) ++ rest)) := by
    have h : (l ++ (o, n) :: (o + n, m) :: r).Perm ((o, n) :: (o + n, m) :: (l ++ r)) :=
      List.perm_middle.trans (List.perm_middle.cons _)
    simpa [shift, Nat.add_assoc] using (h.map (shift base)).append_right rest
  have hperm' : ((base + o, n + m) :: ((l ++ r).map (shift base) ++ rest)).Perm
      ((l ++ (o, n + m) :: r).map (shift base) ++ rest) := by
    have h : ((o, n + m) :: (l ++ r)).Perm (l ++ (o, n + m) :: r) := List.perm_middle.symm
    simpa [shift] using (h.map (shift base)).append_right rest
  exact (hp.perm hperm).join.perm hperm'

theorem NonAdjacent.sublist {blocks' : List (ℕ × ℕ)} (h : NonAdjacent blocks)
    (hsub : blocks'.Sublist blocks) : NonAdjacent blocks' :=
  fun e he f hf => h e (hsub.mem he) f (hsub.mem hf)

/-- A free list with one entry that does not touch the next one but may touch the one before. -/
structure Joined (base lo hi : ℕ) (l : List (ℕ × ℕ)) (o n : ℕ) (r rest : List (ℕ × ℕ)) : Prop where
  sorted : Sorted (l ++ (o, n) :: r)
  others : NonAdjacent (l ++ r)
  apart : ∀ f ∈ r, o + n ≠ f.1
  partition : Partition ((l ++ (o, n) :: r).map (shift base) ++ rest) lo hi

theorem joined_of_joinNext (hhi : hi < 2 ^ 64) (hs : Sorted (l ++ (o, n) :: r))
    (hna : NonAdjacent (l ++ r))
    (hp : Partition ((l ++ (o, n) :: r).map (shift base) ++ rest) lo hi) :
    ∃ n' r', joinNext (l ++ (o, n) :: r) o n = (l ++ (o, n') :: r', n') ∧
      Joined base lo hi l o n' r' rest := by
  have ha := hs.around_of_eq
  have hmem : (o, n) ∈ l ++ (o, n) :: r := by simp
  have hend := end_le_of_mem hp hmem
  have hapart : ∀ f ∈ r, o + n ≤ f.1 := by
    intro f hf
    have hlt := ha.right f hf
    have h := apart_of_key_ne (f := f) hp hmem (by simp [hf]) (by simp only at hlt ⊢; omega)
    simp only at h hlt
    omega
  have hsum : ∀ f ∈ r, n + f.2 < 2 ^ 64 := by
    intro f hf
    have h := end_le_of_mem hp (e := f) (by simp [hf])
    have hle := hapart f hf
    omega
  rcases joinNext_spec hs ha (by simp only at hend; omega) hsum with ⟨heq, hhead⟩ | ⟨m, r', rfl,
    heq⟩
  · refine ⟨n, r, heq, hs, hna, ?_, hp⟩
    cases r with
    | nil => simp
    | cons h r' =>
      intro f hf
      rcases List.mem_cons.mp hf with rfl | hf'
      · exact hhead f (by simp)
      · have hle := hapart h (.head _)
        have hlt := (ha.succ hs).right f hf'
        omega
  · refine ⟨n + m, r', heq, ?_, ?_, ?_, partition_join hp⟩
    · have hsub : (l ++ (o, n) :: r').Sublist (l ++ (o, n) :: (o + n, m) :: r') :=
        ((List.sublist_cons_self _ _).cons_cons _).append_left l
      exact Sorted.update (hs.sublist hsub) (n + m)
    · exact hna.sublist ((List.sublist_cons_self _ _).append_left l)
    · intro f hf
      have h := hna (o + n, m) (by simp) f (by simp [hf])
      simp only at h
      omega

theorem Joined.pos (h : Joined base lo hi l o n r rest) : 0 < n :=
  pos_of_mem h.partition (e := (o, n)) (by simp)

theorem Joined.freeList (h : Joined base lo hi l o n r rest)
    (hlast : ∀ e ∈ l.getLast?, e.1 + e.2 ≠ o) : FreeList base lo hi (l ++ (o, n) :: r) rest := by
  refine ⟨h.sorted, ?_, h.partition⟩
  have ha := h.sorted.around_of_eq
  have hleft : ∀ e ∈ l, e.1 + e.2 ≠ o := by
    intro e he
    rcases List.eq_nil_or_concat l with rfl | ⟨l', g, rfl⟩
    · simp at he
    · rw [List.concat_eq_append] at h ha he hlast
      rcases List.mem_append.mp he with he' | he'
      · have hpred := ha.pred h.sorted
        have hlt := hpred.left e he'
        have hgo := ha.left g (by simp)
        have := apart_of_key_ne (e := e) (f := g) h.partition (by simp [he']) (by simp) (by omega)
        have := pos_of_mem (e := g) h.partition (by simp)
        simp only at hgo
        omega
      · rw [List.mem_singleton] at he'
        subst he'
        exact hlast e (by simp)
  have hpos := h.pos
  intro e he f hf
  simp only [List.mem_append, List.mem_cons] at he hf
  rcases he with he | rfl | he <;> rcases hf with hf | rfl | hf
  · exact h.others e (by simp [he]) f (by simp [hf])
  · exact hleft e he
  · exact h.others e (by simp [he]) f (by simp [hf])
  · have := ha.left f hf
    simp only at this ⊢
    omega
  · simp only
    omega
  · exact h.apart f hf
  · exact h.others e (by simp [he]) f (by simp [hf])
  · have := ha.right e he
    simp only at this ⊢
    omega
  · exact h.others e (by simp [he]) f (by simp [hf])

theorem Joined.joinPrev (hhi : hi < 2 ^ 64) (h : Joined base lo hi l o n r rest) :
    FreeList base lo hi (joinPrev (l ++ (o, n) :: r) o n) rest := by
  have ha := h.sorted.around_of_eq
  have hend := end_le_of_mem (e := (o, n)) h.partition (by simp)
  simp only at hend
  have hsum : ∀ e ∈ l, e.1 + e.2 < 2 ^ 64 ∧ e.2 + n < 2 ^ 64 := by
    intro e he
    have hlt := ha.left e he
    simp only at hlt
    have hap := apart_of_key_ne (e := e) (f := (o, n)) h.partition (by simp [he]) (by simp)
      (by simp only; omega)
    have hpos := h.pos
    simp only at hap
    omega
  rcases joinPrev_spec h.sorted ha hsum with ⟨heq, hlast⟩ | ⟨p, m, l', rfl, rfl, heq⟩
  · rw [heq]
    exact h.freeList hlast
  · rw [heq]
    have hsplit : l' ++ [(p, m)] ++ (p + m, n) :: r = l' ++ (p, m) :: (p + m, n) :: r := by simp
    have hp := partition_join (hsplit ▸ h.partition)
    have hs : Sorted (l' ++ (p, m + n) :: r) := by
      have hsub : (l' ++ (p, m) :: r).Sublist (l' ++ (p, m) :: (p + m, n) :: r) :=
        ((List.sublist_cons_self _ _).cons_cons _).append_left l'
      exact Sorted.update ((hsplit ▸ h.sorted).sublist hsub) (m + n)
    have hjoined : Joined base lo hi l' p (m + n) r rest := by
      refine ⟨hs, h.others.sublist ?_, fun f hf => ?_, hp⟩
      · simp
      · have := h.apart f hf
        omega
    refine hjoined.freeList fun e he => ?_
    have hmem := List.mem_of_mem_getLast? he
    exact h.others e (by simp [hmem]) (p, m) (by simp)

/-- A free piece of the range can be inserted: the block is not free yet, and the list keeps its
shape. -/
theorem insertFreeBlock_ok (hhi : hi < 2 ^ 64)
    (hs : Sorted freeBlocks) (hna : NonAdjacent freeBlocks)
    (hp : Partition (piece (base + o) n ++ (freeBlocks.map (shift base) ++ rest)) lo hi) :
    ∃ freeBlocks', insertFreeBlock freeBlocks o n = .ok freeBlocks' ∧
      FreeList base lo hi freeBlocks' rest := by
  unfold insertFreeBlock
  by_cases hn : n = 0
  · rw [if_pos hn]
    exact ⟨freeBlocks, rfl, hs, hna, by simpa [piece, hn] using hp⟩
  rw [if_neg hn]
  simp only [piece, if_neg hn, List.singleton_append] at hp
  have hfresh : ∀ e ∈ freeBlocks, e.1 ≠ o := by
    intro e he heq
    have hap := hp.apart_head (d := shift base e) (List.mem_append_left _ (shift_mem he))
    have hpos := hp.pos (shift base e) (.tail _ (List.mem_append_left _ (shift_mem he)))
    simp only [Apart, shift] at hap hpos
    omega
  have hnone : get? freeBlocks o = none := by
    simp only [get?, Option.map_eq_none_iff, List.find?_eq_none, decide_eq_true_eq]
    exact hfresh
  obtain ⟨l, r, rfl, ha⟩ := around_assign hs hfresh n
  have hsorted : Sorted (l ++ (o, n) :: r) := ha.eq ▸ sorted_assign hs o n
  have hperm : ((base + o, n) :: ((l ++ r).map (shift base) ++ rest)).Perm
      ((l ++ (o, n) :: r).map (shift base) ++ rest) := by
    have h : ((o, n) :: (l ++ r)).Perm (l ++ (o, n) :: r) := List.perm_middle.symm
    simpa [shift] using (h.map (shift base)).append_right rest
  obtain ⟨n', r', heq, hjoined⟩ := joined_of_joinNext hhi hsorted hna (hp.perm hperm)
  refine ⟨_, ?_, hjoined.joinPrev hhi⟩
  simp only [hnone, Option.isSome_none, Bool.false_eq_true, if_false, ha.eq, heq]

theorem FreeList.perm {rest' : List (ℕ × ℕ)} (h : FreeList base lo hi freeBlocks rest)
    (hp : rest.Perm rest') : FreeList base lo hi freeBlocks rest' :=
  ⟨h.sorted, h.nonAdjacent, h.partition.perm (hp.append_left _)⟩

end Insert

/-- Nothing is inserted for an empty piece, so a guard against it changes nothing. -/
theorem insertFreeBlock_guard {β : Type} (freeBlocks : List (ℕ × ℕ)) (o n : ℕ)
    (k : List (ℕ × ℕ) → Except Abort β) :
    (if 0 < n then insertFreeBlock freeBlocks o n >>= k else pure freeBlocks >>= k) =
      insertFreeBlock freeBlocks o n >>= k := by
  split_ifs with hn
  · rfl
  · rw [insertFreeBlock, if_pos (by omega)]
    rfl

/-! ### Allocating -/

theorem firstFit_spec {base : ℕ} {freeBlocks : List (ℕ × ℕ)}
    {block : ℕ × ℕ} (h : firstFit base allocSize alignment freeBlocks = some (block, padding)) :
    block ∈ freeBlocks ∧ fits base allocSize alignment block = some padding := by
  induction freeBlocks with
  | nil => simp [firstFit] at h
  | cons b rest ih =>
    unfold firstFit at h
    cases hf : fits base allocSize alignment b with
    | none =>
      simp only [hf] at h
      exact ⟨.tail _ (ih h).1, (ih h).2⟩
    | some q =>
      simp only [hf, Option.some.injEq, Prod.mk.injEq] at h
      obtain ⟨rfl, rfl⟩ := h
      exact ⟨.head _, hf⟩

/-- A fitting block has the allocation behind the padding, at an aligned address. -/
theorem fits_spec {base o n : ℕ} (htop : base + o + n < 2 ^ 64)
    (h : fits base allocSize alignment (o, n) = some padding) :
    alignment ∣ base + o + padding ∧ padding + allocSize ≤ n := by
  unfold fits at h
  have hstart : add64 base o = base + o := add64_eq (by omega)
  have hend : add64 (base + o) n = base + o + n := add64_eq htop
  simp only [hstart, hend] at h
  cases ha : alignUp (base + o) alignment with
  | none => simp [ha] at h
  | some aligned =>
    obtain ⟨hle, hlt, hdvd⟩ := alignUp_spec (by omega) ha
    simp only [ha, sub64_eq hlt hle] at h
    split_ifs at h with h1 h2 h3
    obtain rfl := Option.some.inj h
    refine ⟨?_, by omega⟩
    rwa [Nat.add_sub_cancel' hle]

theorem FreeList.fresh {base lo hi s : ℕ} {f allocations : List (ℕ × ℕ)}
    (h : FreeList base lo hi f ((p, s) :: allocations)) : ∀ e ∈ allocations, e.1 ≠ p := by
  intro e he heq
  have hpart := h.partition.perm List.perm_append_comm
  have hap := hpart.apart_head (d := e) (List.mem_append_left _ he)
  have hpos := hpart.pos e (.tail _ (List.mem_append_left _ he))
  have hpos' := hpart.pos (p, s) (.head _)
  simp only [Apart] at hap
  omega

namespace Arena

structure Sound (a : Arena) : Prop where
  freeList : FreeList a.base a.base (a.base + a.capacity) a.freeBlocks a.allocations
  sorted : Sorted a.allocations
  aligned : ∀ e ∈ a.allocations, defaultAlignment ∣ e.1
  base_pos : 0 < a.base
  top : a.base + a.capacity < 2 ^ 64

/-- `a'` is `a` with one more allocation, at `p`. -/
structure Allocated (a : Arena) (alignment size : ℕ) (a' : Arena) (p : ℕ) : Prop where
  sound : a'.Sound
  base : a'.base = a.base
  capacity : a'.capacity = a.capacity
  pos : 0 < p
  aligned : alignment ∣ p
  fresh : ∀ e ∈ a.allocations, e.1 ≠ p
  allocations : a'.allocations = assign a.allocations p (max 1 size)

variable {a : Arena} {padding alignment size p m : ℕ}

theorem Sound.carve (h : a.Sound) {o n s : ℕ} (hmem : (o, n) ∈ a.freeBlocks)
    (hn : padding + s ≤ n) (hs : 0 < s) :
    Partition (piece (a.base + o) padding ++ ((erase a.freeBlocks o).map (shift a.base) ++
      ((a.base + o + padding,
        s) :: (piece (a.base + o + padding + s) (n - (padding + s)) ++ a.allocations))))
      a.base (a.base + a.capacity) := by
  have hperm : (a.freeBlocks.map (shift a.base) ++ a.allocations).Perm
      ((a.base + o, n) :: ((erase a.freeBlocks o).map (shift a.base) ++ a.allocations)) := by
    have hp := perm_erase h.freeList.sorted hmem
    simpa [shift] using (hp.map (shift a.base)).append_right a.allocations
  have hp := h.freeList.partition.perm hperm
  rw [show n = padding + (s + (n - (padding + s))) by omega] at hp
  have hcut := hp.cut_middle hs
  refine hcut.perm (.append_left _ ?_)
  exact ((List.perm_append_comm_assoc _ _ _).cons _).trans List.perm_middle.symm

/-- The allocation is cut out of the block found, and what is left of it stays free. -/
theorem Sound.allocateLocked_found (h : a.Sound) {o n : ℕ}
    (hfit : firstFit a.base (max 1 size) alignment a.freeBlocks = some ((o, n), padding)) :
    ∃ f, a.allocateLocked size alignment = .ok ({ a with
        freeBlocks := f
        allocations := assign a.allocations (a.base + o + padding) (max 1 size) },
        a.base + o + padding) ∧
      FreeList a.base a.base (a.base + a.capacity) f
        ((a.base + o + padding, max 1 size) :: a.allocations) := by
  obtain ⟨s, hs⟩ : ∃ s, s = max 1 size := ⟨_, rfl⟩
  have hmax : (if size = 0 then 1 else size) = s := by
    rw [hs]
    split_ifs <;> omega
  rw [← hs] at hfit ⊢
  obtain ⟨hmem, hfits⟩ := firstFit_spec hfit
  have hend := end_le_of_mem h.freeList.partition hmem
  have htop := h.top
  simp only at hend
  obtain ⟨-, hle⟩ := fits_spec (by omega) hfits
  have hcarve := h.carve hmem hle (by omega)
  have ho : add64 o padding = o + padding := add64_eq (by omega)
  have ht : add64 (o + padding) s = o + padding + s := add64_eq (by omega)
  have hb : add64 a.base o = a.base + o := add64_eq (by omega)
  have hb' : add64 (a.base + o) padding = a.base + o + padding := add64_eq (by omega)
  unfold allocateLocked
  simp only [hmax, hfit, ho, ht, hb, hb', insertFreeBlock_guard]
  obtain ⟨f₁, hf₁, hfree₁⟩ := insertFreeBlock_ok htop (sorted_erase h.freeList.sorted o)
    (h.freeList.nonAdjacent.sublist List.filter_sublist) hcarve
  have hp₂ : Partition (piece (a.base + (o + padding + s)) (n - (padding + s)) ++
      (f₁.map (shift a.base) ++ ((a.base + o + padding, s) :: a.allocations)))
      a.base (a.base + a.capacity) := by
    rw [show a.base + (o + padding + s) = a.base + o + padding + s by omega]
    refine hfree₁.partition.perm ?_
    exact (List.perm_middle.symm.append_left _).trans (List.perm_append_comm_assoc _ _ _)
  obtain ⟨f₂, hf₂, hfree₂⟩ := insertFreeBlock_ok htop hfree₁.sorted hfree₁.nonAdjacent hp₂
  refine ⟨f₂, ?_, hfree₂⟩
  rw [hf₁]
  change (insertFreeBlock f₁ _ _ >>= _) = _
  rw [hf₂]
  rfl

theorem allocateLocked_none (hfit : firstFit a.base (max 1 size) alignment a.freeBlocks = none) :
    a.allocateLocked size alignment = .ok (a, 0) := by
  have hmax : (if size = 0 then 1 else size) = max 1 size := by split_ifs <;> omega
  unfold allocateLocked
  simp only [hmax, hfit]

theorem allocateLocked_ok (h : a.Sound) (hal : defaultAlignment ∣ alignment)
    (size : ℕ) : a.allocateLocked size alignment = .ok (a, 0) ∨
      ∃ a' p, a.allocateLocked size alignment = .ok (a', p) ∧ Allocated a alignment size a' p := by
  cases hfit : firstFit a.base (max 1 size) alignment a.freeBlocks with
  | none => exact .inl (allocateLocked_none hfit)
  | some found =>
    right
    obtain ⟨⟨o, n⟩, padding⟩ := found
    obtain ⟨hmem, hfits⟩ := firstFit_spec hfit
    have hend := end_le_of_mem h.freeList.partition hmem
    have htop := h.top
    simp only at hend
    obtain ⟨hdvd, -⟩ := fits_spec (by omega) hfits
    obtain ⟨f, heq, hfree⟩ := h.allocateLocked_found hfit
    refine ⟨_, _, heq, ?_⟩
    exact {
      sound := {
        freeList := hfree.perm (perm_assign hfree.fresh _).symm
        sorted := sorted_assign h.sorted _ _
        aligned := by
          intro e he
          rcases mem_assign_key he with he | rfl
          · exact h.aligned e he
          · exact hal.trans hdvd
        base_pos := h.base_pos
        top := h.top }
      base := rfl
      capacity := rfl
      pos := by have := h.base_pos; omega
      aligned := hdvd
      fresh := hfree.fresh
      allocations := rfl }

/-! ### Freeing and resizing -/

/-- `a'` has the range of `a` and is sound. -/
structure Kept (a a' : Arena) : Prop where
  sound : a'.Sound
  base : a'.base = a.base
  capacity : a'.capacity = a.capacity

theorem Sound.kept (h : a.Sound) : Kept a a := ⟨h, rfl, rfl⟩

theorem Allocated.kept {a' : Arena} (h : Allocated a alignment size a' p) : Kept a a' :=
  ⟨h.sound, h.base, h.capacity⟩

theorem Sound.bounds (h : a.Sound) {n : ℕ} (hmem : (p, n) ∈ a.allocations) :
    a.base ≤ p ∧ p + n ≤ a.base + a.capacity ∧ 0 < n := by
  have hmem' : (p, n) ∈ a.freeBlocks.map (shift a.base) ++ a.allocations :=
    List.mem_append_right _ hmem
  obtain ⟨hlo, hhi⟩ := h.freeList.partition.bounds hmem'
  exact ⟨hlo, hhi, h.freeList.partition.pos _ hmem'⟩

theorem Sound.apart (h : a.Sound) {n : ℕ} (hmem : (p, n) ∈ a.allocations) :
    Partition ((p, n) :: (a.freeBlocks.map (shift a.base) ++ erase a.allocations p))
      a.base (a.base + a.capacity) := by
  have hp := perm_erase h.sorted hmem
  exact h.freeList.partition.perm ((hp.append_left _).trans List.perm_middle)

theorem freeLocked_ok (h : a.Sound) {n : ℕ} (hmem : (p, n) ∈ a.allocations) :
    ∃ a', a.freeLocked p n = .ok a' ∧ Kept a a' ∧ a'.allocations = erase a.allocations p := by
  obtain ⟨hlo, hhi, hn⟩ := h.bounds hmem
  have htop := h.top
  have hp := h.apart hmem
  have hsub : sub64 p a.base = p - a.base := sub64_eq (by omega) hlo
  have hpiece : piece (a.base + (p - a.base)) n = [(p, n)] := by
    rw [Nat.add_sub_cancel' hlo, piece_pos hn]
  obtain ⟨f, hf, hfree⟩ := insertFreeBlock_ok (o := p - a.base) (n := n) htop h.freeList.sorted
    h.freeList.nonAdjacent (by rw [hpiece]; exact hp)
  refine ⟨{ a with freeBlocks := f, allocations := erase a.allocations p }, ?_, ?_, rfl⟩
  · unfold freeLocked
    rw [hsub, hf]
    rfl
  · refine ⟨⟨hfree, sorted_erase h.sorted p, ?_, h.base_pos, h.top⟩, rfl, rfl⟩
    intro e he
    exact h.aligned e (mem_erase_iff.mp he).1

/-- An allocation gets the first `m` bytes of a block, and the other `k` become free. -/
theorem Sound.resize (h : a.Sound) {n k : ℕ} (hmem : (p, n) ∈ a.allocations) (hm : 0 < m)
    {freeBlocks : List (ℕ × ℕ)} (hs : Sorted freeBlocks) (hna : NonAdjacent freeBlocks)
    (hp : Partition ((p, m + k) :: (freeBlocks.map (shift a.base) ++ erase a.allocations p))
      a.base (a.base + a.capacity)) : ∃ f, insertFreeBlock freeBlocks (p - a.base + m) k = .ok f ∧
      Kept a { a with freeBlocks := f, allocations := assign a.allocations p m } := by
  obtain ⟨hlo, -, -⟩ := h.bounds hmem
  have hcut := hp.cut_pieces
  rw [piece_pos hm, show p + m = a.base + (p - a.base + m) by omega] at hcut
  have hcut' : Partition (piece (a.base + (p - a.base + m)) k ++
      (freeBlocks.map (shift a.base) ++ ((p, m) :: erase a.allocations p)))
      a.base (a.base + a.capacity) := by
    refine hcut.perm ((List.perm_append_comm_assoc [(p, m)] _ _).trans (.append_left _ ?_))
    rw [List.singleton_append]
    exact List.perm_middle.symm
  obtain ⟨f, hf, hfree⟩ := insertFreeBlock_ok h.top hs hna hcut'
  refine ⟨f, hf, ⟨hfree.perm (perm_reassign h.sorted hmem m).symm, sorted_assign h.sorted p m, ?_,
    h.base_pos, h.top⟩, rfl, rfl⟩
  intro e he
  rcases mem_assign_key he with he | rfl
  · exact h.aligned e he
  · exact h.aligned (p, n) hmem

theorem shrink_ok (h : a.Sound) {n : ℕ} (hmem : (p, n) ∈ a.allocations) (hm : 0 < m)
    (hlt : m < n) : ∃ a', a.shrink p n m = .ok (a', p) ∧ Kept a a' ∧
      a'.allocations = assign a.allocations p m := by
  obtain ⟨hlo, hhi, -⟩ := h.bounds hmem
  have htop := h.top
  have hsub : sub64 p a.base = p - a.base := sub64_eq (by omega) hlo
  have hadd : add64 (p - a.base) m = p - a.base + m := add64_eq (by omega)
  have hp := h.apart hmem
  rw [show n = m + (n - m) by omega] at hp
  obtain ⟨f, hf, hkept⟩ := h.resize hmem hm h.freeList.sorted h.freeList.nonAdjacent hp
  refine ⟨_, ?_, hkept, rfl⟩
  unfold shrink
  rw [hsub, hadd, hf]
  rfl

theorem growInPlace_ok (h : a.Sound) {n t : ℕ} (hmem : (p, n) ∈ a.allocations)
    (hfree : (p - a.base + n, t) ∈ a.freeBlocks) (hlt : n < m) (hle : m - n ≤ t) :
    ∃ a', a.growInPlace p m (p - a.base + n) t (m - n) = .ok (a', p) ∧ Kept a a' ∧
      a'.allocations = assign a.allocations p m := by
  obtain ⟨hlo, hhi, hn⟩ := h.bounds hmem
  have htop := h.top
  have hend := end_le_of_mem h.freeList.partition hfree
  simp only at hend
  have hadd : add64 (p - a.base + n) (m - n) = p - a.base + m := by
    rw [add64_eq (by omega)]
    omega
  have hp : Partition ((p, m + (t - (m - n))) ::
      ((erase a.freeBlocks (p - a.base + n)).map (shift a.base) ++ erase a.allocations p))
      a.base (a.base + a.capacity) := by
    have hperm : (a.freeBlocks.map (shift a.base) ++ erase a.allocations p).Perm ((p + n, t) ::
        ((erase a.freeBlocks (p - a.base + n)).map (shift a.base) ++ erase a.allocations p)) := by
      have hperm := (perm_erase h.freeList.sorted hfree).map (shift a.base)
      rw [List.map_cons, shift, show a.base + (p - a.base + n) = p + n by omega] at hperm
      exact hperm.append_right _
    have hjoin := ((h.apart hmem).perm (hperm.cons _)).join
    rwa [show n + t = m + (t - (m - n)) by omega] at hjoin
  obtain ⟨f, hf, hkept⟩ := h.resize hmem (by omega) (sorted_erase h.freeList.sorted _)
    (h.freeList.nonAdjacent.sublist List.filter_sublist) hp
  refine ⟨_, ?_, hkept, rfl⟩
  unfold growInPlace
  have hguard := insertFreeBlock_guard (erase a.freeBlocks (p - a.base + n)) (p - a.base + m)
    (t - (m - n)) fun f => pure ({ a with
      freeBlocks := f
      allocations := assign a.allocations p m }, p)
  simp only [Nat.sub_pos_iff_lt] at hguard
  rw [hadd]
  refine hguard.trans ?_
  rw [hf]
  rfl

/-- Moving: the replacement is allocated while the old block is still there. -/
theorem move_ok (h : a.Sound) {n : ℕ} (hmem : (p, n) ∈ a.allocations) :
    ∃ a' q, a.move p n m = .ok (a', q) ∧ Kept a a' ∧ (q ≠ 0 → (q, max 1 m) ∈ a'.allocations) := by
  unfold move
  rcases allocateLocked_ok h (dvd_refl defaultAlignment) m with heq | ⟨a₁, q, heq, hall⟩
  · refine ⟨a, 0, ?_, h.kept, by simp⟩
    rw [heq]
    rfl
  · have hne := hall.fresh (p, n) hmem
    have hperm := hall.allocations ▸ perm_assign hall.fresh (max 1 m)
    have hmem₁ : (p, n) ∈ a₁.allocations := hperm.mem_iff.mpr (.tail _ hmem)
    obtain ⟨a₂, hfree, hkept, hal⟩ := freeLocked_ok hall.sound hmem₁
    refine ⟨a₂, q, ?_, ⟨hkept.sound, hkept.base.trans hall.base,
      hkept.capacity.trans hall.capacity⟩, fun _ => ?_⟩
    · rw [heq]
      have hpos : ¬ q = 0 := hall.pos.ne'
      change (if q = 0 then _ else _) = _
      rw [if_neg hpos, hfree]
      rfl
    · rw [hal, mem_erase_iff]
      exact ⟨hperm.mem_iff.mpr (.head _), fun heq => hne heq.symm⟩

theorem allocate_ok (h : a.Sound) (hal : defaultAlignment ∣ alignment) (size : ℕ) :
    ∃ a' p, a.allocate size alignment = .ok (a', p) ∧ Kept a a' ∧
      (p ≠ 0 → alignment ∣ p ∧ (p, max 1 size) ∈ a'.allocations) := by
  unfold allocate
  split_ifs
  · exact ⟨a, 0, rfl, h.kept, by simp⟩
  · rcases allocateLocked_ok h hal size with heq | ⟨a', p, heq, hall⟩
    · exact ⟨a, 0, heq, h.kept, by simp⟩
    · refine ⟨a', p, heq, hall.kept, fun _ => ⟨hall.aligned, ?_⟩⟩
      rw [hall.allocations]
      exact (perm_assign hall.fresh _).mem_iff.mpr (.head _)

theorem free_ok (h : a.Sound) (pointer : ℕ) : ∃ a' code, a.free pointer = .ok (a', code) ∧
    Kept a a' := by
  unfold free
  split_ifs
  · exact ⟨a, 0, rfl, h.kept⟩
  · cases hget : get? a.allocations pointer with
    | none => exact ⟨a, 1, rfl, h.kept⟩
    | some n =>
      obtain ⟨a', heq, hkept, -⟩ := freeLocked_ok h (mem_of_get? h.sorted hget)
      refine ⟨a', 0, ?_, hkept⟩
      simp only [heq]
      rfl

theorem mem_reassign {n : ℕ} (h : a.Sound) (hmem : (p, n) ∈ a.allocations) :
    (p, m) ∈ assign a.allocations p m :=
  (perm_reassign h.sorted hmem m).mem_iff.mpr (.head _)

theorem realloc_ok (h : a.Sound) (pointer size : ℕ) :
    ∃ a' p, a.realloc pointer size = .ok (a', p) ∧ Kept a a' ∧
      (p ≠ 0 → (p, max 1 size) ∈ a'.allocations) := by
  unfold realloc
  split_ifs with hnull hzero
  · obtain ⟨a', p, heq, hkept, hp⟩ := allocate_ok h (dvd_refl defaultAlignment) size
    exact ⟨a', p, heq, hkept, fun hne => (hp hne).2⟩
  · obtain ⟨a', code, heq, hkept⟩ := free_ok h pointer
    refine ⟨a', 0, ?_, hkept, by simp⟩
    rw [heq]
    rfl
  · cases hget : get? a.allocations pointer with
    | none => exact ⟨a, 0, rfl, h.kept, by simp⟩
    | some n =>
      have hmem := mem_of_get? h.sorted hget
      obtain ⟨hlo, hhi, hn⟩ := h.bounds hmem
      have htop := h.top
      have hmax : max 1 size = size := by omega
      rw [hmax]
      dsimp only
      split_ifs with heq hlt
      · exact ⟨a, pointer, rfl, h.kept, fun _ => heq ▸ hmem⟩
      · obtain ⟨a', heq', hkept, hal⟩ := shrink_ok h hmem (by omega) hlt
        exact ⟨a', pointer, heq', hkept, fun _ => hal ▸ mem_reassign h hmem⟩
      · have hsub : sub64 pointer a.base = pointer - a.base := sub64_eq (by omega) hlo
        have hadd : add64 (pointer - a.base) n = pointer - a.base + n := add64_eq (by omega)
        rw [hsub, hadd]
        have hmove := move_ok (m := size) h hmem
        rw [hmax] at hmove
        cases htail : get? a.freeBlocks (pointer - a.base + n) with
        | none => exact hmove
        | some t =>
          dsimp only
          split_ifs with hle
          · obtain ⟨a', heq', hkept, hal⟩ := growInPlace_ok h hmem
              (mem_of_get? h.freeList.sorted htail) (by omega) hle
            exact ⟨a', pointer, heq', hkept, fun _ => hal ▸ mem_reassign h hmem⟩
          · exact hmove

/-! ### Runs -/

/-- The free blocks at their addresses, and the live allocations. -/
def blocks (a : Arena) : List (ℕ × ℕ) := a.freeBlocks.map (shift a.base) ++ a.allocations

theorem create_sound {base capacity flags : ℕ} (h : acceptsRange base capacity flags) :
    (create base capacity).Sound := by
  simp only [acceptsRange, ne_eq, decide_not, Bool.and_eq_true, Bool.not_eq_eq_eq_not,
    Bool.not_true, decide_eq_false_iff_not, decide_eq_true_eq] at h
  obtain ⟨⟨⟨hbase, hcap⟩, hle⟩, -⟩ := h
  have hpos : 0 < capacity := by omega
  unfold create
  rw [if_pos hpos]
  refine ⟨⟨List.pairwise_singleton _ _, ?_, ?_⟩, List.Pairwise.nil, by simp, ?_, ?_⟩
  · intro e he f hf
    simp only [List.mem_singleton] at he hf
    subst he hf
    simp only
    omega
  · exact Partition.singleton hpos
  · simp only
    omega
  · simp only
    omega

end Arena

theorem dvd_max_of_isPowerOfTwo (h : isPowerOfTwo alignment) :
    defaultAlignment ∣ max alignment defaultAlignment := by
  rcases le_total alignment defaultAlignment with hle | hle
  · rw [max_eq_right hle]
  · rw [max_eq_left hle]
    obtain ⟨k, rfl⟩ := isPowerOfTwo_iff.mp h
    have hk : 4 ≤ k := (Nat.pow_le_pow_iff_right (a := 2) (by decide)).mp hle
    exact Nat.pow_dvd_pow 2 hk

/-- The pointer is aligned as requested and owns the bytes. -/
def Call.Served (c : Call) (a' : Arena) (p : ℕ) : Prop :=
  ∀ alignment size, c.request = some (alignment, size) → p ≠ 0 →
    max 16 alignment ∣ p ∧ (p, max 1 size) ∈ a'.allocations

theorem Call.served_of {c : Call} {a' : Arena} {size : ℕ}
    (hreq : c.request = some (alignment, size))
    (h : p ≠ 0 → max 16 alignment ∣ p ∧ (p, max 1 size) ∈ a'.allocations) : c.Served a' p := by
  intro alignment' size' hreq' hne
  obtain ⟨rfl, rfl⟩ := Prod.mk.inj (Option.some.inj (hreq.symm.trans hreq'))
  exact h hne

theorem Call.run_ok {a : Arena} (h : a.Sound) (c : Call) :
    ∃ a' p, c.run a = .ok (a', p) ∧ Arena.Kept a a' ∧ c.Served a' p := by
  cases c with
  | malloc size =>
    obtain ⟨a', p, heq, hkept, hp⟩ := Arena.allocate_ok h (dvd_refl _) size
    exact ⟨a', p, heq, hkept, served_of rfl hp⟩
  | calloc count size =>
    simp only [run]
    split_ifs
    · exact ⟨a, 0, rfl, h.kept, served_of rfl (absurd rfl)⟩
    · obtain ⟨a', p, heq, hkept, hp⟩ := Arena.allocate_ok h (dvd_refl _) (count * size)
      exact ⟨a', p, heq, hkept, served_of rfl hp⟩
  | memalign alignment size =>
    simp only [run]
    split_ifs with hpow
    · exact ⟨a, 0, rfl, h.kept, served_of rfl (absurd rfl)⟩
    · have hpow' : isPowerOfTwo alignment := by simpa using hpow
      obtain ⟨a', p, heq, hkept, hp⟩ :=
        Arena.allocate_ok h (dvd_max_of_isPowerOfTwo hpow') size
      exact ⟨a', p, heq, hkept, served_of rfl (max_comm alignment 16 ▸ hp)⟩
  | realloc pointer size =>
    obtain ⟨a', p, heq, hkept, hp⟩ := Arena.realloc_ok h pointer size
    refine ⟨a', p, heq, hkept, served_of rfl fun hne => ?_⟩
    exact ⟨hkept.sound.aligned _ (hp hne), hp hne⟩
  | free pointer =>
    obtain ⟨a', code, heq, hkept⟩ := Arena.free_ok h pointer
    exact ⟨a', code, heq, hkept, by simp [Served, request]⟩

theorem Reachable.kept {first a : Arena} (h : first.Sound) (hr : Reachable first a) :
    Arena.Kept first a := by
  induction hr with
  | refl => exact h.kept
  | call c hr hrun ih =>
    obtain ⟨a', p, heq, hkept, -⟩ := c.run_ok ih.sound
    obtain ⟨rfl, rfl⟩ := Prod.mk.inj (Except.ok.inj (heq.symm.trans hrun))
    exact ⟨hkept.sound, hkept.base.trans ih.base, hkept.capacity.trans ih.capacity⟩

/-- In every run the blocks partition the arena, no two free blocks touch, and the next call,
whatever it is, does not abort and returns an aligned pointer to enough bytes. -/
theorem Reachable.partition_and_call_ok {base capacity flags : ℕ} {a : Arena}
    (haccept : acceptsRange base capacity flags)
    (hreach : Reachable (Arena.create base capacity) a) :
    Partition a.blocks base (base + capacity) ∧ NonAdjacent a.freeBlocks ∧
      ∀ c : Call, ∃ a' p, c.run a = .ok (a', p) ∧
        ∀ alignment size, c.request = some (alignment, size) → p ≠ 0 →
          max 16 alignment ∣ p ∧ ∃ n, get? a'.allocations p = some n ∧ max 1 size ≤ n := by
  have hkept := hreach.kept (Arena.create_sound haccept)
  refine ⟨?_, hkept.sound.freeList.nonAdjacent, fun c => ?_⟩
  · have hp := hkept.sound.freeList.partition
    have hbase : a.base = base := hkept.base
    have hcapacity : a.capacity = capacity := hkept.capacity
    rw [← hbase, ← hcapacity]
    exact hp
  · obtain ⟨a', p, heq, hkept', hp⟩ := c.run_ok hkept.sound
    refine ⟨a', p, heq, fun alignment size hreq hne => ?_⟩
    obtain ⟨hdvd, hmem⟩ := hp alignment size hreq hne
    exact ⟨hdvd, _, get?_eq_some_of_mem hkept'.sound.sorted hmem, le_rfl⟩

/-- After an allocation of 33 bytes at a multiple of 64 the arena has a block on either side. -/
theorem reachable_memalign :
    Reachable (Arena.create 0x1010 0x1000)
      ⟨0x1010, 0x1000, [(0, 48), (81, 4015)], [(0x1040, 33)]⟩ := by
  have hrun : (Call.memalign 64 33).run (Arena.create 0x1010 0x1000) =
      .ok (⟨0x1010, 0x1000, [(0, 48), (81, 4015)], [(0x1040, 33)]⟩, 0x1040) := by
    decide +kernel
  exact .call _ .refl hrun

theorem Reachable.partition_and_call_ok_memalign :
    ∃ a, Reachable (Arena.create 0x1010 0x1000) a ∧ acceptsRange 0x1010 0x1000 0 ∧
      a.allocations = [(0x1040, 33)] ∧ a.freeBlocks = [(0, 48), (81, 4015)] ∧
      NonAdjacent a.freeBlocks := by
  have haccept : acceptsRange 0x1010 0x1000 0 := by decide
  exact ⟨_, reachable_memalign, haccept, rfl, rfl,
    (reachable_memalign.partition_and_call_ok haccept).2.1⟩

end PS4Droid.Libc
