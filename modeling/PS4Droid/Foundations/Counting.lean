import Mathlib.Algebra.BigOperators.Group.Finset.Piecewise

/-!
# Counting the places of a function

How many places of a finite set satisfy a test changes by at most one when the function changes at
one place.
-/

namespace PS4Droid

variable {ι β : Type*} [DecidableEq ι]

theorem card_filter_update (places : Finset ι) (test : β → Bool) (f : ι → β) {t : ι}
    (ht : t ∈ places) (b : β) :
    (places.filter fun i => test (Function.update f t b i)).card + (test (f t)).toNat =
      (places.filter fun i => test (f i)).card + (test b).toNat := by
  have hone : ∀ c : Bool, (if c = true then 1 else 0) = c.toNat := by decide
  have hrest : ∀ i ∈ places.erase t,
    (test (Function.update f t b i)).toNat = (test (f i)).toNat := by
    intro i hi
    rw [Function.update_of_ne (Finset.ne_of_mem_erase hi)]
  simp only [Finset.card_filter, hone]
  rw [← Finset.add_sum_erase _ _ ht, ← Finset.add_sum_erase places (fun i => (test (f i)).toNat) ht,
    Finset.sum_congr rfl hrest, Function.update_self]
  omega

end PS4Droid
