import Mathlib.Order.Lattice.Nat

/-!
# Copies to scattered places

A loop copies data to the cells that a range of positions names. Two positions may name one cell;
the later one then decides what the cell holds.
-/

namespace PS4Droid

variable {β : Type*}

/-- `n` values from the start of `data` are copied to `dst`. -/
def copyAt (mem : ℕ → β) (dst n : ℕ) (data : ℕ → β) : ℕ → β := fun q =>
  if dst ≤ q ∧ q < dst + n then data (q - dst) else mem q

/-- The positions of `[lo, lo + n)` that name the cell `q`. -/
def Naming (place : ℕ → Option ℕ) (lo n q : ℕ) : Set ℕ :=
  {x | (lo ≤ x ∧ x < lo + n) ∧ place x = some q}

/-- Every cell that a position of `[lo, lo + n)` names holds the value that the last of them has as
its source; the other cells are as before. -/
structure Scatters (place : ℕ → Option ℕ) (source : ℕ → ℕ) (data : ℕ → β) (lo n : ℕ)
    (mem mem' : ℕ → β) : Prop where
  last : ∀ x q, IsGreatest (Naming place lo n q) x → mem' q = data (source x)
  other : ∀ q, Naming place lo n q = ∅ → mem' q = mem q

variable {place place' : ℕ → Option ℕ} {source source' : ℕ → ℕ} {data : ℕ → β} {lo n n' q : ℕ}
  {mem mem₁ mem' : ℕ → β}

theorem naming_zero (place : ℕ → Option ℕ) (lo q : ℕ) : Naming place lo 0 q = ∅ := by
  rw [Set.eq_empty_iff_forall_notMem]
  rintro x ⟨hx, -⟩
  omega

/-- A cell that is named has a last position that names it. -/
theorem exists_last {x : ℕ} (hx : x ∈ Naming place lo n q) :
    ∃ y, IsGreatest (Naming place lo n q) y := by
  have hbounded : BddAbove (Naming place lo n q) := ⟨lo + n, fun y hy => hy.1.2.le⟩
  exact ⟨sSup (Naming place lo n q), Nat.sSup_mem ⟨x, hx⟩ hbounded,
    fun y hy => le_csSup hbounded hy⟩

namespace Scatters

theorem nil (place : ℕ → Option ℕ) (source : ℕ → ℕ) (data : ℕ → β) (lo : ℕ) (mem : ℕ → β) :
    Scatters place source data lo 0 mem mem := by
  refine ⟨fun x q hx => ?_, fun _ _ => rfl⟩
  rw [naming_zero] at hx
  exact absurd hx.1 (Set.notMem_empty x)

/-- The positions of the second part come later. -/
theorem append (h₁ : Scatters place source data lo n mem mem₁)
    (h₂ : Scatters place source data (lo + n) n' mem₁ mem') :
    Scatters place source data lo (n + n') mem mem' := by
  refine ⟨fun x q hx => ?_, fun q hq => ?_⟩
  · obtain ⟨⟨hrange, hplace⟩, hmax⟩ := hx
    by_cases hfirst : x < lo + n
    · have hnone : Naming place (lo + n) n' q = ∅ := by
        rw [Set.eq_empty_iff_forall_notMem]
        rintro y ⟨hy, hplace'⟩
        have := hmax (show y ∈ Naming place lo (n + n') q from ⟨by omega, hplace'⟩)
        omega
      rw [h₂.other q hnone]
      refine h₁.last x q ⟨⟨by omega, hplace⟩, ?_⟩
      rintro y ⟨hy, hplace'⟩
      exact hmax ⟨by omega, hplace'⟩
    · refine h₂.last x q ⟨⟨by omega, hplace⟩, ?_⟩
      rintro y ⟨hy, hplace'⟩
      exact hmax ⟨by omega, hplace'⟩
  · rw [Set.eq_empty_iff_forall_notMem] at hq
    rw [h₂.other q, h₁.other q]
    all_goals
      rw [Set.eq_empty_iff_forall_notMem]
      rintro y ⟨hy, hplace⟩
      exact hq y ⟨by omega, hplace⟩

/-- One copy. -/
theorem copyAt {dst : ℕ} (hplace : ∀ x, lo ≤ x ∧ x < lo + n → place x = some (dst + (x - lo)))
    (hsource : ∀ x, lo ≤ x ∧ x < lo + n → source x = x - lo) :
    Scatters place source data lo n mem (copyAt mem dst n data) := by
  refine ⟨fun x q hx => ?_, fun q hq => ?_⟩
  · obtain ⟨⟨hrange, hq⟩, -⟩ := hx
    rw [hplace x hrange, Option.some.injEq] at hq
    rw [PS4Droid.copyAt, if_pos (by omega), hsource x hrange]
    exact congrArg data (by omega)
  · rw [PS4Droid.copyAt, if_neg]
    intro hin
    rw [Set.eq_empty_iff_forall_notMem] at hq
    refine hq (lo + (q - dst)) ⟨by omega, ?_⟩
    rw [hplace _ (by omega), Option.some.injEq]
    omega

/-- The same copies in other coordinates. -/
theorem shift {d : ℕ} (h : Scatters place source data lo n mem mem')
    (hplace : ∀ x, lo ≤ x ∧ x < lo + n → place' (d + x) = place x)
    (hsource : ∀ x, lo ≤ x ∧ x < lo + n → source' (d + x) = source x) :
    Scatters place' source' data (d + lo) n mem mem' := by
  have hnames : ∀ q x, d + x ∈ Naming place' (d + lo) n q ↔ x ∈ Naming place lo n q := by
    intro q x
    constructor
    · rintro ⟨hx, hq⟩
      exact ⟨by omega, hplace x (by omega) ▸ hq⟩
    · rintro ⟨hx, hq⟩
      exact ⟨by omega, (hplace x hx).trans hq⟩
  refine ⟨fun y q hy => ?_, fun q hq => h.other q ?_⟩
  · obtain ⟨x, rfl⟩ : ∃ x, y = d + x := ⟨y - d, by have := hy.1.1; omega⟩
    have hx := (hnames q x).mp hy.1
    rw [hsource x hx.1]
    refine h.last x q ⟨hx, fun z hz => ?_⟩
    have := hy.2 ((hnames q z).mpr hz)
    omega
  · rw [Set.eq_empty_iff_forall_notMem] at hq ⊢
    exact fun x hx => hq (d + x) ((hnames q x).mpr hx)

theorem congr (h : Scatters place source data lo n mem mem')
    (hplace : ∀ x, lo ≤ x ∧ x < lo + n → place' x = place x)
    (hsource : ∀ x, lo ≤ x ∧ x < lo + n → source' x = source x) :
    Scatters place' source' data lo n mem mem' := by
  have := @shift _ place place' source source' data lo n mem mem' 0 h (by simpa using hplace)
    (by simpa using hsource)
  rwa [Nat.zero_add] at this

end Scatters

end PS4Droid
