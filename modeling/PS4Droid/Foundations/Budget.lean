import Mathlib.Algebra.BigOperators.Group.List.Basic
import Mathlib.Algebra.Ring.Nat

/-!
# Parts of a list within a budget

Every item has a weight. The items that fit from the front are a longest prefix; those that fit from
the back are a longest suffix, which can be kept up to date item by item.
-/

namespace Budget

variable {α : Type*} (w : α → ℕ)

def total (items : List α) : ℕ := (items.map w).sum

/-- The items from the front, up to the first that does not fit. -/
def front : ℕ → List α → List α
  | _, [] => []
  | budget, a :: rest => if w a ≤ budget then a :: front (budget - w a) rest else []

/-- What is behind them. -/
def behind : ℕ → List α → List α
  | _, [] => []
  | budget, a :: rest => if w a ≤ budget then behind (budget - w a) rest else a :: rest

/-- The items that are left when the first is taken away as long as there is too much. -/
def back (budget : ℕ) : List α → List α
  | [] => []
  | a :: rest => if total w (a :: rest) ≤ budget then a :: rest else back budget rest

variable {w} {budget : ℕ} {items xs ys : List α} {a : α}

@[simp]
theorem total_nil : total w [] = 0 := rfl

@[simp]
theorem total_cons (a : α) (rest : List α) : total w (a :: rest) = w a + total w rest :=
  List.sum_cons

@[simp]
theorem total_append (xs ys : List α) : total w (xs ++ ys) = total w xs + total w ys := by
  rw [total, List.map_append, List.sum_append, total, total]

theorem front_append_behind (budget : ℕ) (items : List α) :
    front w budget items ++ behind w budget items = items := by
  induction items generalizing budget with
  | nil => rfl
  | cons a rest ih =>
    rw [front, behind]
    by_cases hfit : w a ≤ budget
    · rw [if_pos hfit, if_pos hfit, List.cons_append, ih]
    · rw [if_neg hfit, if_neg hfit, List.nil_append]

theorem behind_eq_nil : behind w budget items = [] ↔ total w items ≤ budget := by
  induction items generalizing budget with
  | nil => exact ⟨fun _ => Nat.zero_le _, fun _ => rfl⟩
  | cons a rest ih =>
    rw [behind, total_cons]
    by_cases hfit : w a ≤ budget
    · rw [if_pos hfit, ih]
      omega
    · rw [if_neg hfit]
      exact ⟨nofun, fun h => by omega⟩

theorem front_eq_self (h : total w items ≤ budget) : front w budget items = items := by
  have happend := front_append_behind (w := w) budget items
  rwa [behind_eq_nil.mpr h, List.append_nil] at happend

/-- One more item behind some that fit. -/
theorem behind_concat_of_fit (h : total w xs ≤ budget) (a : α) :
    behind w budget (xs ++ [a]) = if total w xs + w a ≤ budget then [] else [a] := by
  induction xs generalizing budget with
  | nil =>
    rw [List.nil_append, behind, behind]
    simp
  | cons x xs ih =>
    rw [total_cons] at h
    rw [List.cons_append, behind, if_pos (by omega), ih (by omega)]
    refine if_congr ?_ rfl rfl
    rw [total_cons]
    omega

/-- One more item behind some that do not fit. -/
theorem behind_concat (h : ¬total w xs ≤ budget) (a : α) :
    behind w budget (xs ++ [a]) = behind w budget xs ++ [a] := by
  induction xs generalizing budget with
  | nil => exact absurd (Nat.zero_le _) h
  | cons x xs ih =>
    rw [total_cons] at h
    rw [List.cons_append, behind, behind]
    by_cases hfit : w x ≤ budget
    · rw [if_pos hfit, if_pos hfit, ih (by omega)]
    · rw [if_neg hfit, if_neg hfit, List.cons_append]

theorem front_concat (h : ¬total w (xs ++ [a]) ≤ budget) :
    front w budget (xs ++ [a]) = front w budget xs := by
  have happend := front_append_behind (w := w) budget (xs ++ [a])
  have hxs := front_append_behind (w := w) budget xs
  by_cases hfit : total w xs ≤ budget
  · rw [total_append, total_cons, total_nil, Nat.add_zero] at h
    rw [behind_concat_of_fit hfit, if_neg h] at happend
    rw [List.append_cancel_right happend, front_eq_self hfit]
  · rw [behind_concat hfit, ← List.append_assoc] at happend
    exact List.append_cancel_right ((List.append_cancel_right happend).trans hxs.symm)

theorem back_suffix (budget : ℕ) (items : List α) : back w budget items <:+ items := by
  induction items with
  | nil => exact List.suffix_rfl
  | cons a rest ih =>
    rw [back]
    split
    · exact List.suffix_rfl
    · exact ih.trans (List.suffix_cons a rest)

theorem total_back_le (budget : ℕ) (items : List α) : total w (back w budget items) ≤ budget := by
  induction items with
  | nil => exact Nat.zero_le _
  | cons a rest ih =>
    rw [back]
    split
    · assumption
    · exact ih

theorem back_eq_self (h : total w items ≤ budget) : back w budget items = items := by
  cases items with
  | nil => rfl
  | cons a rest => exact if_pos h

/-- What fits of all items fits of those that are left and one more. -/
theorem back_back_concat (budget : ℕ) (items : List α) (a : α) :
    back w budget (back w budget items ++ [a]) = back w budget (items ++ [a]) := by
  induction items with
  | nil => rfl
  | cons x rest ih =>
    rw [back]
    split
    · rfl
    · next hover =>
      rw [ih, List.cons_append, back, if_neg]
      rw [total_cons, total_append]
      rw [total_cons] at hover
      omega

/-- Nothing fits from the back if the last item does not. -/
theorem back_concat_eq_nil (xs : List α) (a : α) : back w budget (xs ++ [a]) = [] ↔
    budget < w a := by
  induction xs with
  | nil =>
    rw [List.nil_append, back, total_cons, total_nil, Nat.add_zero]
    by_cases hfit : w a ≤ budget
    · rw [if_pos hfit]
      exact ⟨nofun, fun h => by omega⟩
    · rw [if_neg hfit]
      exact ⟨fun _ => by omega, fun _ => rfl⟩
  | cons x xs ih =>
    rw [List.cons_append, back]
    by_cases hfit : total w (x :: (xs ++ [a])) ≤ budget
    · rw [if_pos hfit]
      rw [total_cons, total_append, total_cons, total_nil] at hfit
      exact ⟨nofun, fun h => by omega⟩
    · rw [if_neg hfit, ih]

end Budget
