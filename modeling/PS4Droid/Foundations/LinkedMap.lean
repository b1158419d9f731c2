import Mathlib.Data.List.Basic
import Mathlib.Logic.Function.Basic

/-!
# Maps as lists of entries

A map is the list of its entries; the first entry of a key counts.
-/

namespace LinkedMap

variable {α β : Type*} [DecidableEq α]

/-- The value of a key. -/
def get : List (α × β) → α → Option β
  | [], _ => none
  | e :: m, k => if e.1 = k then some e.2 else get m k

variable {m : List (α × β)} {k : α} {v old : β}

theorem mem_of_get (h : get m k = some v) : (k, v) ∈ m := by
  induction m with
  | nil => cases h
  | cons e m ih =>
    rw [get] at h
    by_cases he : e.1 = k
    · rw [if_pos he] at h
      cases h
      exact he ▸ List.mem_cons_self
    · rw [if_neg he] at h
      exact List.mem_cons_of_mem _ (ih h)

/-- The first entry of a key. -/
theorem getElem?_findIdx (m : List (α × β)) (k : α) :
    m[m.findIdx fun e => e.1 = k]? = (get m k).map fun v => (k, v) := by
  induction m with
  | nil => rfl
  | cons e m ih =>
    rw [List.findIdx_cons, get]
    by_cases he : e.1 = k
    · simp [← he]
    · simp [he, ih]

theorem get_concat (h : get m k = none) (v : β) :
    get (m ++ [(k, v)]) = Function.update (get m) k (some v) := by
  funext i
  induction m with
  | nil => by_cases hi : k = i <;> simp [get, Function.update_apply, hi, eq_comm]
  | cons e m ih =>
    rw [get] at h
    split_ifs at h with he
    rw [List.cons_append, get, ih h, Function.update_apply, Function.update_apply, get]
    by_cases hi : i = k
    · rw [hi, if_neg he, if_pos rfl, if_pos rfl]
    · rw [if_neg hi, if_neg hi]

theorem get_set (h : get m k = some old) (v : β) :
    get (m.set (m.findIdx fun e => e.1 = k) (k, v)) = Function.update (get m) k (some v) := by
  funext i
  induction m with
  | nil => cases h
  | cons e m ih =>
    rw [get] at h
    rw [List.findIdx_cons, Function.update_apply]
    by_cases he : e.1 = k
    · by_cases hi : k = i <;> simp [get, he, hi, eq_comm]
    · rw [if_neg he] at h
      simp only [he, decide_false, cond_false, List.set_cons_succ, get, ih h, Function.update_apply]
      by_cases hi : i = k
      · rw [hi, if_neg he, if_pos rfl, if_pos rfl]
      · rw [if_neg hi, if_neg hi]

end LinkedMap
