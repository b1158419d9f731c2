import PS4Droid.Foundations.IntervalMap

/-!
# First fit

The first place for `n` aligned cells in the free intervals of an ordered list. In every interval
only the least aligned address at or above its start is tried.
-/

namespace PS4Droid.FirstMatch

/-!
### The first match in any order

A loop over an unordered collection stops at the first element that passes a test. In some order it
stops at any of the elements that pass, so what follows is independent of the order if it is the
same for all of them.
-/

variable {α β : Type} {p : α → Bool} {l order : List α} {a : α}

theorem mem_of_first (h : order.Perm l) (hfind : order.find? p = some a) : a ∈ l ∧ p a = true :=
  ⟨h.mem_iff.mp (List.mem_of_find?_eq_some hfind), List.find?_some hfind⟩

theorem none_of_first (h : order.Perm l) (hfind : order.find? p = none) : ∀ a ∈ l, ¬p a = true :=
  fun a ha => List.find?_eq_none.mp hfind a (h.mem_iff.mpr ha)

variable [DecidableEq α]

theorem exists_first (ha : a ∈ l) (hp : p a = true) : ∃ order :
    List α, order.Perm l ∧ order.find? p = some a :=
  ⟨a :: l.erase a, (List.perm_cons_erase ha).symm, List.find?_cons_of_pos hp⟩

/-- What comes out is independent of the order. -/
theorem independent_iff {f : Option α → β} :
    (∀ order order' : List α, order.Perm l → order'.Perm l →
      f (order.find? p) = f (order'.find? p)) ↔
      ∀ a ∈ l, ∀ b ∈ l, p a = true → p b = true → f (some a) = f (some b) := by
  constructor
  · intro h a ha b hb hpa hpb
    obtain ⟨order, horder, hfind⟩ := exists_first ha hpa
    obtain ⟨order', horder', hfind'⟩ := exists_first hb hpb
    rw [← hfind, ← hfind']
    exact h order order' horder horder'
  · intro h order order' horder horder'
    cases hfind : order.find? p with
    | none =>
      cases hfind' : order'.find? p with
      | none => rfl
      | some b =>
        obtain ⟨hb, hpb⟩ := mem_of_first horder' hfind'
        exact absurd hpb (none_of_first horder hfind b hb)
    | some a =>
      obtain ⟨ha, hpa⟩ := mem_of_first horder hfind
      cases hfind' : order'.find? p with
      | none => exact absurd hpa (none_of_first horder' hfind' a ha)
      | some b =>
        obtain ⟨hb, hpb⟩ := mem_of_first horder' hfind'
        exact h a ha b hb hpa hpb

end PS4Droid.FirstMatch

/-! ### Places in intervals -/

namespace PS4Droid

/-- The least multiple of `n` at or above `lo`. -/
def roundUp (lo n : ℕ) : ℕ := (lo + n - 1) / n * n

theorem dvd_roundUp (lo n : ℕ) : n ∣ roundUp lo n := Dvd.intro_left _ rfl

theorem le_roundUp {n : ℕ} (lo : ℕ) (hn : 0 < n) : lo ≤ roundUp lo n := by
  have hdiv := Nat.div_add_mod (lo + n - 1) n
  have hmod := Nat.mod_lt (lo + n - 1) hn
  rw [roundUp, Nat.mul_comm]
  omega

theorem roundUp_le {lo n a : ℕ} (hn : 0 < n) (hle : lo ≤ a) (hdvd : n ∣ a) : roundUp lo n ≤ a := by
  obtain ⟨q, rfl⟩ := hdvd
  rw [roundUp, Nat.mul_comm n q]
  refine Nat.mul_le_mul_right n (Nat.lt_succ_iff.mp ?_)
  rw [Nat.div_lt_iff_lt_mul hn, Nat.succ_mul, Nat.mul_comm q n]
  omega

theorem roundUp_of_dvd {lo n : ℕ} (hn : 0 < n) (hdvd : n ∣ lo) : roundUp lo n = lo :=
  le_antisymm (roundUp_le hn le_rfl hdvd) (le_roundUp lo hn)

/-- Rounding up as the next multiple behind the remainder. -/
theorem roundUp_of_mod_ne {lo n : ℕ} (hn : 0 < n) (hmod : lo % n ≠ 0) :
    roundUp lo n = lo - lo % n + n := by
  have hlt := Nat.mod_lt lo hn
  have hsum : lo + n - 1 = n * (lo / n) + (lo % n + n - 1) := by
    have := Nat.div_add_mod lo n
    omega
  have hquot : (lo % n + n - 1) / n = 1 := by
    rw [Nat.div_eq_iff hn]
    omega
  have hfloor : n * (lo / n) = lo - lo % n := by
    have := Nat.div_add_mod lo n
    omega
  rw [roundUp, hsum, Nat.mul_add_div hn, hquot, Nat.add_mul, Nat.mul_comm, hfloor, Nat.one_mul]

theorem roundUp_mono {lo lo' n : ℕ} (hn : 0 < n) (hle : lo ≤ lo') : roundUp lo n ≤ roundUp lo' n :=
  roundUp_le hn (hle.trans (le_roundUp lo' hn)) (dvd_roundUp lo' n)

theorem roundUp_lt {n : ℕ} (lo : ℕ) (hn : 0 < n) : roundUp lo n < lo + n := by
  have hle : (lo + n - 1) / n * n ≤ lo + n - 1 := Nat.div_mul_le_self _ _
  rw [roundUp]
  omega

open IntervalMap

section FirstFit

variable {α : Type*} (size : α → ℕ) (free : α → Prop)

/-- `[a, a + n)` lies in one free interval of the list, behind `lo`, and `a` is aligned. -/
structure Fits (align n lo : ℕ) (l : List (ℕ × α)) (a : ℕ) : Prop where
  above : lo ≤ a
  aligned : align ∣ a
  inside : ∃ e ∈ l, free e.2 ∧ e.1 ≤ a ∧ a + n ≤ e.1 + size e.2

variable {size free} {align n lo a : ℕ} {e : ℕ × α} {l rest : List (ℕ × α)}

theorem not_fits_nil : ¬Fits size free align n lo [] a := by
  rintro ⟨-, -, e, he, -⟩
  cases he

theorem Fits.of_mem (h : Fits size free align n lo rest a) (hsub : ∀ e ∈ rest, e ∈ l) :
    Fits size free align n lo l a := by
  obtain ⟨e, he, hfit⟩ := h.inside
  exact ⟨h.above, h.aligned, e, hsub e he, hfit⟩

/-- In an interval, the least aligned address fits if any does. -/
theorem fits_cons (hn : 0 < align) : Fits size free align n lo (e :: rest) a →
    (free e.2 ∧ roundUp (max lo e.1) align ≤ a ∧ a + n ≤ e.1 + size e.2) ∨
      Fits size free align n lo rest a := by
  rintro ⟨habove, haligned, e', he', hfree, hle, hend⟩
  rcases List.mem_cons.mp he' with rfl | he'
  · exact .inl ⟨hfree, roundUp_le hn (max_le habove hle) haligned, hend⟩
  · exact .inr ⟨habove, haligned, e', he', hfree, hle, hend⟩

/-- An interval whose least aligned address does not fit is passed over. -/
theorem fits_cons_of_not (hn : 0 < align)
    (hnot : ¬(free e.2 ∧ roundUp (max lo e.1) align + n ≤ e.1 + size e.2)) :
    Fits size free align n lo (e :: rest) a ↔ Fits size free align n lo rest a := by
  constructor
  · intro h
    rcases fits_cons hn h with ⟨hfree, hle, hend⟩ | h
    · exact absurd ⟨hfree, by omega⟩ hnot
    · exact h
  · exact fun h => h.of_mem fun _ he => List.mem_cons_of_mem _ he

/-- The least aligned address of the first interval where it fits is the least that fits. -/
theorem isLeast_fits_cons (hn : 0 < align) (htiling : Tiling size (e :: rest)) (hfree : free e.2)
    (hend : roundUp (max lo e.1) align + n ≤ e.1 + size e.2) :
    IsLeast {a | Fits size free align n lo (e :: rest) a} (roundUp (max lo e.1) align) := by
  have hle := le_roundUp (max lo e.1) hn
  refine ⟨⟨(le_max_left _ _).trans hle, dvd_roundUp _ _, e, by simp, hfree,
    (le_max_right _ _).trans hle, hend⟩, ?_⟩
  intro a ha
  rcases fits_cons hn ha with ⟨-, hle', -⟩ | ⟨-, -, f, hf, -, hfa, -⟩
  · exact hle'
  · have hbehind := (List.pairwise_cons.mp htiling.apart).1 f hf
    omega

end FirstFit

end PS4Droid
