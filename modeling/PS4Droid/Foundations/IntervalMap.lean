import PS4Droid.Foundations.OrderedMap

/-!
# Interval maps

An ordered map whose entry `(k, a)` occupies the half-open interval
`[k, k + size a)`. A tiling has non-empty, pairwise disjoint entries. What such
a map means is the value it attaches to every point, `viewAt`: an entry is read
at the offset of the point inside the entry. Cutting an entry in two and joining
two neighbours change the list but not the points, so everything above this file
is stated through `Covers` and `viewAt`.
-/

namespace IntervalMap

open OrderedMap

variable {α β : Type*} (size : α → ℕ) (view : α → ℕ → β)

/-- The point `x` lies in the interval of the entry `e`. -/
def Within (e : ℕ × α) (x : ℕ) : Prop := e.1 ≤ x ∧ x < e.1 + size e.2

instance (e : ℕ × α) (x : ℕ) : Decidable (Within size e x) :=
  inferInstanceAs (Decidable (_ ∧ _))

/-- Non-empty entries in increasing order that do not overlap. -/
structure Tiling (m : List (ℕ × α)) : Prop where
  pos : ∀ e ∈ m, 0 < size e.2
  apart : m.Pairwise fun e f => e.1 + size e.2 ≤ f.1

def Covers (m : List (ℕ × α)) (x : ℕ) : Prop := ∃ e ∈ m, Within size e x

def lookup (m : List (ℕ × α)) (x : ℕ) : Option (ℕ × α) :=
  m.find? fun e => Within size e x

def viewAt (m : List (ℕ × α)) (x : ℕ) : Option β :=
  (lookup size m x).map fun e => view e.2 (x - e.1)

/-- `[x, x + n)` lies inside the interval of a single entry. -/
def Inside (m : List (ℕ × α)) (x n : ℕ) : Prop :=
  ∃ e ∈ m, e.1 ≤ x ∧ x + n ≤ e.1 + size e.2

variable {size view} {m l r mid mid' : List (ℕ × α)} {e : ℕ × α} {x : ℕ}

theorem Tiling.nil : Tiling size ([] : List (ℕ × α)) := ⟨by simp, by simp⟩

theorem Tiling.sorted (h : Tiling size m) : Sorted m := by
  refine h.apart.imp_of_mem ?_
  intro e f he _ hef
  have := h.pos e he
  omega

theorem Tiling.left (h : Tiling size (l ++ r)) : Tiling size l :=
  ⟨fun e he => h.pos e (by simp [he]), (List.pairwise_append.mp h.apart).1⟩

theorem Tiling.right (h : Tiling size (l ++ r)) : Tiling size r :=
  ⟨fun e he => h.pos e (by simp [he]), (List.pairwise_append.mp h.apart).2.1⟩

theorem Tiling.append (hl : Tiling size l) (hr : Tiling size r)
    (h : ∀ e ∈ l, ∀ f ∈ r, e.1 + size e.2 ≤ f.1) : Tiling size (l ++ r) := by
  refine ⟨?_, List.pairwise_append.mpr ⟨hl.apart, hr.apart, h⟩⟩
  intro e he
  rcases List.mem_append.mp he with he | he
  · exact hl.pos e he
  · exact hr.pos e he

variable {k : ℕ} {a b : α} {f : ℕ × α}

theorem Tiling.singleton (h : 0 < size a) : Tiling size [(k, a)] :=
  ⟨by simpa using h, by simp⟩

theorem Tiling.pair (ha : 0 < size a) (hb : 0 < size b) :
    Tiling size [(k, a), (k + size a, b)] :=
  ⟨by simp [ha, hb], by simp⟩

theorem Tiling.mem_left_lt (h : Tiling size (l ++ r)) (he : e ∈ l) (hf : f ∈ r) :
    e.1 + size e.2 ≤ f.1 :=
  (List.pairwise_append.mp h.apart).2.2 e he f hf

@[simp] theorem covers_nil : ¬ Covers size ([] : List (ℕ × α)) x := by simp [Covers]

@[simp] theorem covers_cons : Covers size (e :: m) x ↔ Within size e x ∨ Covers size m x := by
  simp [Covers]

@[simp] theorem covers_append : Covers size (l ++ r) x ↔ Covers size l x ∨ Covers size r x := by
  simp only [Covers, List.mem_append]
  constructor
  · rintro ⟨e, he | he, hx⟩
    · exact Or.inl ⟨e, he, hx⟩
    · exact Or.inr ⟨e, he, hx⟩
  · rintro (⟨e, he, hx⟩ | ⟨e, he, hx⟩)
    · exact ⟨e, Or.inl he, hx⟩
    · exact ⟨e, Or.inr he, hx⟩

theorem within_unique (h : Tiling size m) (he : e ∈ m) (hf : f ∈ m)
    (hex : Within size e x) (hfx : Within size f x) : e = f := by
  obtain ⟨l, r, ha⟩ := h.sorted.around he
  have hm : Tiling size (l ++ e :: r) := ha.eq ▸ h
  rw [ha.eq] at hf
  unfold Within at hex hfx
  rcases List.mem_append.mp hf with hf | hf
  · have := hm.mem_left_lt hf (by simp : e ∈ e :: r)
    omega
  · rcases List.mem_cons.mp hf with rfl | hf
    · rfl
    · have := (List.pairwise_cons.mp hm.right.apart).1 f hf
      omega

theorem lookup_mem (h : lookup size m x = some e) : e ∈ m ∧ Within size e x := by
  refine ⟨List.mem_of_find?_eq_some h, ?_⟩
  simpa using List.find?_some h

theorem lookup_eq_some (h : Tiling size m) (he : e ∈ m) (hx : Within size e x) :
    lookup size m x = some e := by
  cases hl : lookup size m x with
  | none =>
    have := List.find?_eq_none.mp hl e he
    simp [hx] at this
  | some f =>
    have hf := lookup_mem hl
    rw [within_unique h he hf.1 hx hf.2]

theorem covers_iff_lookup : Covers size m x ↔ (lookup size m x).isSome := by
  simp [Covers, lookup]

theorem covers_iff_viewAt (view : α → ℕ → β) : Covers size m x ↔ (viewAt size view m x).isSome := by
  simp [covers_iff_lookup, viewAt]

theorem viewAt_eq_none : viewAt size view m x = none ↔ ¬ Covers size m x := by
  rw [covers_iff_viewAt view]
  simp

theorem viewAt_eq (view : α → ℕ → β) (h : Tiling size m) (he : e ∈ m) (hx : Within size e x) :
    viewAt size view m x = some (view e.2 (x - e.1)) := by
  simp [viewAt, lookup_eq_some h he hx]

theorem viewAt_eq_some {b : β} (h : viewAt size view m x = some b) :
    ∃ e ∈ m, Within size e x ∧ view e.2 (x - e.1) = b := by
  unfold viewAt at h
  cases hl : lookup size m x with
  | none => simp [hl] at h
  | some e =>
    simp only [hl, Option.map_some, Option.some.injEq] at h
    exact ⟨e, (lookup_mem hl).1, (lookup_mem hl).2, h⟩

@[simp] theorem viewAt_nil : viewAt size view ([] : List (ℕ × α)) x = none := rfl

theorem viewAt_append :
    viewAt size view (l ++ r) x = (viewAt size view l x).or (viewAt size view r x) := by
  unfold viewAt lookup
  rw [List.find?_append]
  cases List.find? (fun e => decide (Within size e x)) l <;> simp

theorem viewAt_singleton : viewAt size view [(k, a)] x =
      if k ≤ x ∧ x < k + size a then some (view a (x - k)) else none := by
  by_cases h : k ≤ x ∧ x < k + size a
  · simp [viewAt, lookup, Within, h]
  · rw [if_neg h, viewAt_eq_none]
    simpa [Within] using h

/-- The point found by the ordered lookup of the code is the covering entry. -/
theorem floor_eq_lookup (h : Tiling size m) (hx : Covers size m x) :
    floor m x = lookup size m x := by
  obtain ⟨e, he, hex⟩ := hx
  obtain ⟨l, r, ha⟩ := h.sorted.around he
  rw [lookup_eq_some h he hex]
  refine floor_eq_of_around ha hex.1 ?_
  intro f hf
  have hm : Tiling size (l ++ e :: r) := ha.eq ▸ h
  have := (List.pairwise_cons.mp hm.right.apart).1 f hf
  unfold Within at hex
  omega

theorem floor_covering (h : Tiling size m) (he : e ∈ m) (hx : Within size e x) :
    floor m x = some e := by
  rw [floor_eq_lookup h ⟨e, he, hx⟩, lookup_eq_some h he hx]

/-- Replacing a run of entries by a tiling of no more points keeps a tiling. -/
theorem Tiling.splice (h : Tiling size (l ++ mid ++ r)) (h' : Tiling size mid')
    (hsub : ∀ x, Covers size mid' x → Covers size mid x) : Tiling size (l ++ mid' ++ r) := by
  have hlm : Tiling size (l ++ mid) := h.left
  have hlr : ∀ e ∈ l, ∀ f ∈ r, e.1 + size e.2 ≤ f.1 := fun e he f hf =>
    h.mem_left_lt (by simp [he]) hf
  have hfirst : ∀ e ∈ l, ∀ f ∈ mid', e.1 + size e.2 ≤ f.1 := by
    intro e he f hf
    have hpos := h'.pos f hf
    obtain ⟨g, hg, hgx⟩ := hsub f.1 ⟨f, hf, by unfold Within; omega⟩
    have := hlm.mem_left_lt he hg
    unfold Within at hgx
    omega
  have hlast : ∀ f ∈ mid', ∀ g ∈ r, f.1 + size f.2 ≤ g.1 := by
    intro f hf g hg
    have hpos := h'.pos f hf
    obtain ⟨e, he, hex⟩ := hsub (f.1 + size f.2 - 1) ⟨f, hf, by unfold Within; omega⟩
    have := h.mem_left_lt (List.mem_append_right l he) hg
    unfold Within at hex
    omega
  refine (hlm.left.append h' hfirst).append h.right ?_
  intro e he f hf
  rcases List.mem_append.mp he with he | he
  · exact hlr e he f hf
  · exact hlast e he f hf

theorem viewAt_splice (h : viewAt size view mid' x = viewAt size view mid x) :
    viewAt size view (l ++ mid' ++ r) x = viewAt size view (l ++ mid ++ r) x := by
  simp only [viewAt_append, h]

theorem covers_splice (h : Covers size mid' x ↔ Covers size mid x) :
    Covers size (l ++ mid' ++ r) x ↔ Covers size (l ++ mid ++ r) x := by
  simp only [covers_append, h]

theorem covers_singleton : Covers size [(k, a)] x ↔ k ≤ x ∧ x < k + size a := by
  simp [Within]

theorem covers_pair :
    Covers size [(k, a), (k + size a, b)] x ↔ k ≤ x ∧ x < k + size a + size b := by
  simp only [covers_cons, Within, covers_nil, or_false]
  omega

/-- Two adjacent entries are read like one entry that holds both. -/
theorem viewAt_pair {c : α} (hsize : size c = size a + size b)
    (ha : ∀ off < size a, view a off = view c off)
    (hb : ∀ off < size b, view b off = view c (size a + off)) :
    viewAt size view [(k, a), (k + size a, b)] x = viewAt size view [(k, c)] x := by
  rw [show [(k, a), (k + size a, b)] = [(k, a)] ++ [(k + size a, b)] from rfl, viewAt_append,
    viewAt_singleton, viewAt_singleton, viewAt_singleton, hsize]
  by_cases h1 : k ≤ x ∧ x < k + size a
  · have h2 : k ≤ x ∧ x < k + (size a + size b) := by omega
    rw [if_pos h1, if_pos h2, ha _ (by omega)]
    rfl
  · rw [if_neg h1]
    by_cases h2 : k + size a ≤ x ∧ x < k + size a + size b
    · have h3 : k ≤ x ∧ x < k + (size a + size b) := by omega
      have hoff : size a + (x - (k + size a)) = x - k := by omega
      rw [if_pos h2, if_pos h3, hb _ (by omega), hoff]
      rfl
    · have h3 : ¬ (k ≤ x ∧ x < k + (size a + size b)) := by omega
      rw [if_neg h2, if_neg h3]
      rfl

end IntervalMap
