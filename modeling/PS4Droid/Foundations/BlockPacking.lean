import Mathlib.Algebra.BigOperators.Group.List.Basic
import Mathlib.Algebra.Ring.Nat

/-!
# Packing into blocks

Records of given sizes are put behind each other into blocks of one size. A record that does not fit
into what is left of a block starts the next one, and the record before it is stretched to the end
of its block; so is the last one. Then no record lies in two blocks, and the blocks are full.
-/

namespace BlockPacking

variable {block used n m : ℕ} {sizes rest : List ℕ}

/-- The sizes after the stretching, if `used` bytes of the first block are taken. -/
def packed (block : ℕ) : ℕ → List ℕ → List ℕ
  | _, [] => []
  | used, [_] => [block - used]
  | used, n :: m :: rest =>
    if used + n + m ≤ block then n :: packed block (used + n) (m :: rest)
    else (block - used) :: packed block 0 (m :: rest)

/-- No record is larger than a block, and the first one fits into what is left. -/
structure Fits (block used : ℕ) (sizes : List ℕ) : Prop where
  size : ∀ n ∈ sizes, 0 < n ∧ n ≤ block
  first : ∀ n, sizes.head? = some n → used + n ≤ block

theorem Fits.used_lt (h : Fits block used (n :: rest)) : used < block := by
  have hsize := h.size n List.mem_cons_self
  have hfirst := h.first n rfl
  omega

theorem Fits.behind (h : Fits block used (n :: m :: rest)) (hroom : used + n + m ≤ block) :
    Fits block (used + n) (m :: rest) := by
  refine ⟨fun k hk => h.size k (List.mem_cons_of_mem n hk), fun k hk => ?_⟩
  cases hk
  exact hroom

theorem Fits.next (h : Fits block used (n :: m :: rest)) : Fits block 0 (m :: rest) := by
  refine ⟨fun k hk => h.size k (List.mem_cons_of_mem n hk), fun k hk => ?_⟩
  cases hk
  rw [Nat.zero_add]
  exact (h.size m (List.mem_cons_of_mem n List.mem_cons_self)).2

/-- The blocks are full. -/
theorem dvd_sum_packed (h : Fits block used sizes) (hne : sizes ≠ []) :
    block ∣ used + (packed block used sizes).sum := by
  induction used, sizes using packed.induct block with
  | case1 => exact absurd rfl hne
  | case2 used n =>
    have hlt := h.used_lt
    rw [packed, List.sum_singleton, Nat.add_sub_cancel' (Nat.le_of_lt hlt)]
  | case3 used n m rest hroom ih =>
    rw [packed, if_pos hroom, List.sum_cons, ← Nat.add_assoc]
    exact ih (h.behind hroom) (List.cons_ne_nil m rest)
  | case4 used n m rest hfull ih =>
    have hlt := h.used_lt
    rw [packed, if_neg hfull, List.sum_cons, ← Nat.add_assoc,
      Nat.add_sub_cancel' (Nat.le_of_lt hlt)]
    have hdvd := ih h.next (List.cons_ne_nil m rest)
    rw [Nat.zero_add] at hdvd
    exact Nat.dvd_add (Nat.dvd_refl block) hdvd

/-- No record lies in two blocks. -/
theorem packed_within (h : Fits block used sizes) {before after : List ℕ} {size : ℕ}
    (hsplit : packed block used sizes = before ++ size :: after) :
    (used + before.sum) % block + size ≤ block := by
  induction used, sizes using packed.induct block generalizing before with
  | case1 => cases before <;> cases hsplit
  | case2 used n =>
    have hlt := h.used_lt
    rw [packed] at hsplit
    cases before with
    | nil =>
      cases hsplit
      rw [List.sum_nil, Nat.add_zero, Nat.mod_eq_of_lt hlt]
      omega
    | cons first before => cases before <;> cases hsplit
  | case3 used n m rest hroom ih =>
    have hlt := h.used_lt
    rw [packed, if_pos hroom] at hsplit
    cases before with
    | nil =>
      cases hsplit
      rw [List.sum_nil, Nat.add_zero, Nat.mod_eq_of_lt hlt]
      exact h.first size rfl
    | cons first before =>
      rw [List.cons_append, List.cons.injEq] at hsplit
      rw [List.sum_cons, ← hsplit.1, ← Nat.add_assoc]
      exact ih (h.behind hroom) hsplit.2
  | case4 used n m rest hfull ih =>
    have hlt := h.used_lt
    rw [packed, if_neg hfull] at hsplit
    cases before with
    | nil =>
      cases hsplit
      rw [List.sum_nil, Nat.add_zero, Nat.mod_eq_of_lt hlt]
      omega
    | cons first before =>
      rw [List.cons_append, List.cons.injEq] at hsplit
      have hwithin := ih h.next hsplit.2
      rw [List.sum_cons, ← hsplit.1, ← Nat.add_assoc, Nat.add_sub_cancel' (Nat.le_of_lt hlt),
        Nat.add_mod_left]
      rwa [Nat.zero_add] at hwithin

end BlockPacking
