import Mathlib.Data.List.Nodup

/-!
# Taking a bounded number of entries out of a list

`collect` walks a list from the front and takes at most a given number of the entries that pass a
test. A taken entry leaves the list, or leaves something else in its place.
-/

namespace PS4Droid

variable {α κ : Type*}

/-- The entries taken, and the list that is left. -/
def collect (test : α → Bool) (after : α → Option α) : ℕ → List α → List α × List α
  | _, [] => ([], [])
  | 0, entries => ([], entries)
  | room + 1, a :: rest =>
    if test a then
      ((a :: (collect test after room rest).1),
        (after a).toList ++ (collect test after room rest).2)
    else
      ((collect test after (room + 1) rest).1, a :: (collect test after (room + 1) rest).2)

section Collect

variable {test : α → Bool} {after : α → Option α} {room : ℕ} {entries : List α} {a b : α}

@[simp]
theorem collect_nil : collect test after room [] = ([], []) := by
  cases room <;> rfl

@[simp]
theorem collect_zero : collect test after 0 entries = ([], entries) := by
  cases entries <;> rfl

theorem collect_cons_pos (ha : test a = true) : collect test after (room + 1) (a :: entries) =
    (a :: (collect test after room entries).1,
      (after a).toList ++ (collect test after room entries).2) := by
  rw [collect, if_pos ha]

theorem collect_cons_neg (ha : test a = false) : collect test after (room + 1) (a :: entries) =
    ((collect test after (room + 1) entries).1,
      a :: (collect test after (room + 1) entries).2) := by
  rw [collect, if_neg (by simp [ha])]

theorem collect_length_le : (collect test after room entries).1.length ≤ room := by
  induction entries generalizing room with
  | nil => simp
  | cons a entries ih =>
    cases room with
    | zero => simp
    | succ room =>
      cases ha : test a with
      | true =>
        rw [collect_cons_pos ha]
        exact Nat.succ_le_succ ih
      | false =>
        rw [collect_cons_neg ha]
        exact ih

theorem collect_taken_sublist : (collect test after room entries).1.Sublist entries := by
  induction entries generalizing room with
  | nil => simp
  | cons a entries ih =>
    cases room with
    | zero => simp
    | succ room =>
      cases ha : test a with
      | true =>
        rw [collect_cons_pos ha]
        exact ih.cons_cons a
      | false =>
        rw [collect_cons_neg ha]
        exact ih.cons a

theorem mem_of_mem_collect (h : a ∈ (collect test after room entries).1) :
    a ∈ entries ∧ test a = true := by
  induction entries generalizing room with
  | nil => simp at h
  | cons c entries ih =>
    cases room with
    | zero => simp at h
    | succ room =>
      cases hc : test c with
      | true =>
        rw [collect_cons_pos hc] at h
        obtain rfl | h := List.mem_cons.mp h
        · exact ⟨List.mem_cons_self, hc⟩
        · exact ⟨List.mem_cons_of_mem _ (ih h).1, (ih h).2⟩
      | false =>
        rw [collect_cons_neg hc] at h
        exact ⟨List.mem_cons_of_mem _ (ih h).1, (ih h).2⟩

/-- Every entry is taken or is still there. -/
theorem mem_collect_or (h : a ∈ entries) :
    a ∈ (collect test after room entries).1 ∨ a ∈ (collect test after room entries).2 := by
  induction entries generalizing room with
  | nil => cases h
  | cons c entries ih =>
    cases room with
    | zero => exact .inr (by simpa using h)
    | succ room =>
      cases hc : test c with
      | true =>
        rw [collect_cons_pos hc]
        obtain rfl | h := List.mem_cons.mp h
        · exact .inl List.mem_cons_self
        · exact (ih h).imp (List.mem_cons_of_mem _) (List.mem_append_right _)
      | false =>
        rw [collect_cons_neg hc]
        obtain rfl | h := List.mem_cons.mp h
        · exact .inr List.mem_cons_self
        · exact (ih h).imp id (List.mem_cons_of_mem _)

/-- What is left was there before, or stands in the place of a taken entry. -/
theorem mem_collect_rest (h : b ∈ (collect test after room entries).2) :
    b ∈ entries ∨ ∃ a ∈ (collect test after room entries).1, after a = some b := by
  induction entries generalizing room with
  | nil => simp at h
  | cons c entries ih =>
    cases room with
    | zero => exact .inl (by simpa using h)
    | succ room =>
      cases hc : test c with
      | true =>
        rw [collect_cons_pos hc] at h ⊢
        obtain h | h := List.mem_append.mp h
        · exact .inr ⟨c, List.mem_cons_self, by simpa using h⟩
        · refine (ih h).imp (List.mem_cons_of_mem _) ?_
          rintro ⟨a, ha, hb⟩
          exact ⟨a, List.mem_cons_of_mem _ ha, hb⟩
      | false =>
        rw [collect_cons_neg hc] at h ⊢
        obtain rfl | h := List.mem_cons.mp h
        · exact .inl List.mem_cons_self
        · exact (ih h).imp (List.mem_cons_of_mem _) id

theorem collect_ne_nil (h : a ∈ entries) (ha : test a = true) (hroom : 0 < room) :
    (collect test after room entries).1 ≠ [] := by
  obtain ⟨room, rfl⟩ := Nat.exists_eq_succ_of_ne_zero (Nat.pos_iff_ne_zero.mp hroom)
  induction entries with
  | nil => cases h
  | cons c entries ih =>
    cases hc : test c with
    | true =>
      rw [Nat.succ_eq_add_one, collect_cons_pos hc]
      exact List.cons_ne_nil _ _
    | false =>
      rw [Nat.succ_eq_add_one, collect_cons_neg hc]
      obtain rfl | h := List.mem_cons.mp h
      · rw [ha] at hc
        cases hc
      · exact ih h

section Keys

variable {key : α → κ} (hkey : ∀ a b, after a = some b → key b = key a)
include hkey

theorem collect_rest_keys :
    ((collect test after room entries).2.map key).Sublist (entries.map key) := by
  induction entries generalizing room with
  | nil => simp
  | cons c entries ih =>
    cases room with
    | zero => simp
    | succ room =>
      cases hc : test c with
      | true =>
        rw [collect_cons_pos hc]
        cases hafter : after c with
        | none => exact (ih).trans (List.sublist_cons_self _ _)
        | some b =>
          simp only [Option.toList_some, List.singleton_append, List.map_cons, hkey c b hafter]
          exact ih.cons_cons _
      | false =>
        rw [collect_cons_neg hc]
        exact ih.cons_cons _

/-- With one entry for each key, what is left under the key of a taken entry is what that entry left
in its place. -/
theorem collect_rest_of_taken (hnodup : (entries.map key).Nodup)
    (ha : a ∈ (collect test after room entries).1) (hb : b ∈ (collect test after room entries).2)
    (hab : key b = key a) : after a = some b := by
  induction entries generalizing room with
  | nil => simp at ha
  | cons c entries ih =>
    have hc_notin : ∀ d ∈ entries, key d ≠ key c := by
      intro d hd heq
      exact (List.nodup_cons.mp hnodup).1 (heq ▸ List.mem_map_of_mem hd)
    cases room with
    | zero => simp at ha
    | succ room =>
      have hrest : ∀ n, ∀ d ∈ (collect test after n entries).2, key d ≠ key c := by
        intro n d hd heq
        have hmem := (collect_rest_keys hkey).subset (List.mem_map_of_mem hd)
        obtain ⟨e, he, hed⟩ := List.mem_map.mp hmem
        exact hc_notin e he (hed.trans heq)
      cases hc : test c with
      | true =>
        rw [collect_cons_pos hc] at ha hb
        obtain rfl | ha := List.mem_cons.mp ha
        · obtain hb | hb := List.mem_append.mp hb
          · simpa using hb
          · exact absurd hab (hrest _ b hb)
        · obtain hb | hb := List.mem_append.mp hb
          · have hcb : key b = key c := hkey c b (by simpa using hb)
            exact absurd (hab.symm.trans hcb) (hc_notin a (mem_of_mem_collect ha).1)
          · exact ih (List.nodup_cons.mp hnodup).2 ha hb
      | false =>
        rw [collect_cons_neg hc] at ha hb
        obtain rfl | hb := List.mem_cons.mp hb
        · exact absurd hab.symm (hc_notin a (mem_of_mem_collect ha).1)
        · exact ih (List.nodup_cons.mp hnodup).2 ha hb

end Keys

end Collect

end PS4Droid
