import Mathlib.Data.Nat.Init

/-!
# A value with a generation

A writer counts a generation up before the first and after the last of its writes, so the
generation is odd exactly while the value changes. Whoever sees the value together with an even
generation knows it again as long as the generation is the same.
-/

namespace PS4Droid.Generation

variable {V : Type}

/-- The value, its generation, and all that was seen at an even generation. -/
structure Guarded (V : Type) where
  value : V
  count : ℕ
  changing : Bool
  seen : List (ℕ × V)

def Guarded.start (value : V) : Guarded V where
  value := value
  count := 0
  changing := false
  seen := []

inductive Guarded.Reachable (initial : V) : Guarded V → Prop
  | start : Reachable initial (.start initial)
  | begin {a : Guarded V} : Reachable initial a → a.changing = false →
    Reachable initial { a with count := a.count + 1, changing := true }
  | change {a : Guarded V} (value : V) : Reachable initial a → a.changing = true →
    Reachable initial { a with value }
  | finish {a : Guarded V} : Reachable initial a → a.changing = true →
    Reachable initial { a with count := a.count + 1, changing := false }
  | see {a : Guarded V} : Reachable initial a → a.changing = false →
    Reachable initial { a with seen := (a.count, a.value) :: a.seen }

/-- What was seen at the present generation is the present value, as long as nothing changes. -/
structure Guarded.Fresh (a : Guarded V) : Prop where
  parity : a.count % 2 = if a.changing then 1 else 0
  past : ∀ entry ∈ a.seen, entry.1 % 2 = 0 ∧ entry.1 ≤ a.count
  present : ∀ entry ∈ a.seen, entry.1 = a.count → entry.2 = a.value
  agree : ∀ entry ∈ a.seen, ∀ entry' ∈ a.seen, entry.1 = entry'.1 → entry.2 = entry'.2

variable {initial : V} {a : Guarded V}

/-- A counter that has moved on is at no generation that was seen. -/
theorem Guarded.Fresh.moved (h : a.Fresh) {entry : ℕ × V} (hentry : entry ∈ a.seen) :
    entry.1 ≠ a.count + 1 := by
  have hpast := (h.past entry hentry).2
  omega

theorem Guarded.Reachable.fresh (h : Reachable initial a) : a.Fresh := by
  induction h with
  | start => exact ⟨rfl, nofun, nofun, nofun⟩
  | @begin a _ hidle ih =>
    have hparity := ih.parity
    rw [hidle] at hparity
    refine ⟨?_, ?_, ?_, ih.agree⟩
    · show (a.count + 1) % 2 = 1
      simp only [Bool.false_eq_true, if_false] at hparity
      omega
    · intro entry hentry
      exact ⟨(ih.past entry hentry).1, Nat.le_succ_of_le (ih.past entry hentry).2⟩
    · intro entry hentry hcount
      exact absurd hcount (ih.moved hentry)
  | @change a value _ hchanging ih =>
    have hparity := ih.parity
    rw [hchanging] at hparity
    refine ⟨ih.parity, ih.past, ?_, ih.agree⟩
    -- The generation is odd, so nothing was seen at it.
    intro entry hentry hcount
    have heven : entry.1 % 2 = 0 := (ih.past entry hentry).1
    have hcount : entry.1 = a.count := hcount
    simp only [if_true] at hparity
    omega
  | @finish a _ hchanging ih =>
    have hparity := ih.parity
    rw [hchanging] at hparity
    refine ⟨?_, ?_, ?_, ih.agree⟩
    · show (a.count + 1) % 2 = 0
      simp only [if_true] at hparity
      omega
    · intro entry hentry
      exact ⟨(ih.past entry hentry).1, Nat.le_succ_of_le (ih.past entry hentry).2⟩
    · intro entry hentry hcount
      exact absurd hcount (ih.moved hentry)
  | @see a _ hidle ih =>
    have hparity := ih.parity
    rw [hidle] at hparity
    refine ⟨ih.parity, ?_, ?_, ?_⟩
    · intro entry hentry
      rcases List.mem_cons.mp hentry with rfl | hentry
      · exact ⟨by simpa using hparity, Nat.le_refl _⟩
      · exact ih.past entry hentry
    · intro entry hentry hcount
      rcases List.mem_cons.mp hentry with rfl | hentry
      · rfl
      · exact ih.present entry hentry hcount
    · intro entry hentry entry' hentry' hsame
      rcases List.mem_cons.mp hentry with rfl | hentry <;>
        rcases List.mem_cons.mp hentry' with rfl | hentry'
      · rfl
      · exact (ih.present entry' hentry' hsame.symm).symm
      · exact ih.present entry hentry hsame
      · exact ih.agree entry hentry entry' hentry' hsame

/-- Two that saw the same generation saw the same value. -/
theorem Guarded.Reachable.seen_unique (h : Reachable initial a) {count : ℕ} {value value' : V}
    (hvalue : (count, value) ∈ a.seen) (hvalue' : (count, value') ∈ a.seen) : value = value' :=
  h.fresh.agree _ hvalue _ hvalue' rfl

/-- The value changes exactly at the odd generations. -/
theorem Guarded.Reachable.changing_eq (h : Reachable initial a) :
    a.changing = (a.count % 2 == 1) := by
  have hparity := h.fresh.parity
  cases hchanging : a.changing <;> rw [hchanging] at hparity <;> simp [hparity]

end PS4Droid.Generation
