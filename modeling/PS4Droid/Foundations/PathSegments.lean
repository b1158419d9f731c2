import Mathlib.Data.List.Basic

/-!
# Paths and their segments

A path is read from a separator to the next one: the segments that end with a separator are its
directories, what stands behind the last separator is its leaf. In a normal path no directory stands
for the place itself or for the place above.
-/

namespace PathSegments

variable {α : Type*} {sep : α} {here up seg leaf path : List α} {stack segs : List (List α)}

/-- Segments with a separator behind each, and a leaf. -/
def join (sep : α) (segs : List (List α)) (leaf : List α) : List α :=
  segs.flatMap (· ++ [sep]) ++ leaf

@[simp]
theorem join_nil (sep : α) (leaf : List α) : join sep [] leaf = leaf := rfl

@[simp]
theorem join_cons (sep : α) (seg : List α) (segs : List (List α)) (leaf : List α) :
    join sep (seg :: segs) leaf = seg ++ sep :: join sep segs leaf := by
  rw [join, List.flatMap_cons, List.append_assoc, List.append_assoc]
  rfl

theorem join_concat (sep : α) (segs : List (List α)) (seg leaf : List α) :
    join sep (segs ++ [seg]) leaf = join sep segs (seg ++ sep :: leaf) := by
  simp only [join, List.flatMap_append, List.flatMap_cons, List.flatMap_nil, List.append_nil,
    List.append_assoc, List.cons_append, List.nil_append]

variable [DecidableEq α]

/-- The segments that end with a separator. -/
def directories (sep : α) (path : List α) : List (List α) := (path.splitOn sep).dropLast

/-- What stands behind the last separator. -/
def leafOf (sep : α) (path : List α) : List α := (path.splitOn sep).getLastD []

theorem directories_of_not_mem (h : sep ∉ path) : directories sep path = [] := by
  rw [directories, List.splitOn_eq_singleton h]
  rfl

theorem leafOf_of_not_mem (h : sep ∉ path) : leafOf sep path = path := by
  rw [leafOf, List.splitOn_eq_singleton h]
  rfl

theorem directories_cons (h : sep ∉ seg) (rest : List α) :
    directories sep (seg ++ sep :: rest) = seg :: directories sep rest := by
  rw [directories, List.splitOn_append_cons_self_of_not_mem h,
    List.dropLast_cons_of_ne_nil (List.splitOn_ne_nil _ _)]
  rfl

theorem leafOf_cons (h : sep ∉ seg) (rest : List α) :
    leafOf sep (seg ++ sep :: rest) = leafOf sep rest := by
  rw [leafOf, List.splitOn_append_cons_self_of_not_mem h, leafOf]
  obtain ⟨first, others, hsplit⟩ := List.exists_cons_of_ne_nil (List.splitOn_ne_nil sep rest)
  rw [hsplit]
  rfl

/-- A path is read from the left: it has no separator, or a first segment. -/
theorem exists_first (sep : α) (path : List α) :
    sep ∉ path ∨ ∃ seg rest, sep ∉ seg ∧ path = seg ++ sep :: rest := by
  by_cases h : sep ∈ path
  · obtain ⟨seg, rest, rfl, hseg⟩ := List.eq_append_cons_of_mem h
    exact .inr ⟨seg, rest, hseg, rfl⟩
  · exact .inl h

/-- Induction along the segments. -/
theorem segment_induction {motive : List α → Prop} (sep : α)
    (leaf : ∀ path, sep ∉ path → motive path)
    (segment : ∀ seg rest, sep ∉ seg → motive rest → motive (seg ++ sep :: rest)) (path : List α) :
    motive path := by
  induction hn : path.length using Nat.strongRecOn generalizing path with
  | _ n ih =>
    obtain h | ⟨seg, rest, hseg, rfl⟩ := exists_first sep path
    · exact leaf path h
    · refine segment seg rest hseg (ih rest.length ?_ rest rfl)
      rw [List.length_append, List.length_cons] at hn
      omega

theorem directories_join (hsegs : ∀ seg ∈ segs, sep ∉ seg) (hleaf : sep ∉ leaf) :
    directories sep (join sep segs leaf) = segs := by
  induction segs with
  | nil => exact directories_of_not_mem hleaf
  | cons seg segs ih =>
    rw [join_cons, directories_cons (hsegs seg List.mem_cons_self),
      ih fun other hother => hsegs other (List.mem_cons_of_mem _ hother)]

theorem not_mem_leafOf (sep : α) (path : List α) : sep ∉ leafOf sep path := by
  induction path using segment_induction sep with
  | leaf path h =>
    rw [leafOf_of_not_mem h]
    exact h
  | segment seg rest hseg ih =>
    rw [leafOf_cons hseg]
    exact ih

theorem not_mem_directories (sep : α) (path : List α) : ∀ seg ∈ directories sep path,
    sep ∉ seg := by
  induction path using segment_induction sep with
  | leaf path h =>
    rw [directories_of_not_mem h]
    nofun
  | segment seg rest hseg ih =>
    rw [directories_cons hseg]
    intro other hother
    obtain rfl | hother := List.mem_cons.mp hother
    · exact hseg
    · exact ih other hother

theorem join_directories (sep : α) (path : List α) :
    join sep (directories sep path) (leafOf sep path) = path := by
  induction path using segment_induction sep with
  | leaf path h => rw [directories_of_not_mem h, leafOf_of_not_mem h, join_nil]
  | segment seg rest hseg ih => rw [directories_cons hseg, leafOf_cons hseg, join_cons, ih]

/-! ### Normal paths -/

/-- A segment goes on a stack, unless it stands for the place itself or for the place above. -/
def visit (here up : List α) (stack : List (List α)) (seg : List α) : List (List α) :=
  if seg = here then stack else if seg = up then stack.dropLast else stack ++ [seg]

/-- The path with its directories normalised. -/
def normal (sep : α) (here up path : List α) : List α :=
  join sep ((directories sep path).foldl (visit here up) []) (leafOf sep path)

/-- No directory of the stack stands for the place itself or for the place above. -/
def Plain (sep : α) (here up : List α) (stack : List (List α)) : Prop :=
  ∀ seg ∈ stack, sep ∉ seg ∧ seg ≠ here ∧ seg ≠ up

theorem Plain.visit (h : Plain sep here up stack) (hseg : sep ∉ seg) :
    Plain sep here up (visit here up stack seg) := by
  unfold PathSegments.visit
  split_ifs with hhere hup
  · exact h
  · exact fun other hother => h other (List.dropLast_subset _ hother)
  · intro other hother
    obtain hother | hother := List.mem_append.mp hother
    · exact h other hother
    · rw [List.mem_singleton.mp hother]
      exact ⟨hseg, hhere, hup⟩

theorem Plain.foldl (h : Plain sep here up stack) (hsegs : ∀ seg ∈ segs, sep ∉ seg) :
    Plain sep here up (segs.foldl (PathSegments.visit here up) stack) := by
  induction segs generalizing stack with
  | nil => exact h
  | cons seg segs ih =>
    exact ih (h.visit (hsegs seg List.mem_cons_self)) fun other hother =>
      hsegs other (List.mem_cons_of_mem _ hother)

theorem foldl_visit_of_plain (h : Plain sep here up segs) (stack : List (List α)) :
    segs.foldl (visit here up) stack = stack ++ segs := by
  induction segs generalizing stack with
  | nil => exact (List.append_nil stack).symm
  | cons seg segs ih =>
    obtain ⟨-, hhere, hup⟩ := h seg List.mem_cons_self
    rw [List.foldl_cons, visit, if_neg hhere, if_neg hup,
      ih fun other hother => h other (List.mem_cons_of_mem _ hother), List.append_assoc]
    rfl

omit [DecidableEq α] in
theorem plain_nil : Plain sep here up [] := nofun

theorem mem_foldl_visit (h : seg ∈ segs.foldl (visit here up) stack) :
    seg ∈ stack ∨ seg ∈ segs := by
  induction segs generalizing stack with
  | nil => exact .inl h
  | cons first segs ih =>
    obtain h | h := ih h
    · unfold visit at h
      split_ifs at h
      · exact .inl h
      · exact .inl (List.dropLast_subset _ h)
      · obtain h | h := List.mem_append.mp h
        · exact .inl h
        · exact .inr (List.mem_singleton.mp h ▸ List.mem_cons_self)
    · exact .inr (List.mem_cons_of_mem _ h)

/-- Normalising adds nothing but separators. -/
theorem mem_of_mem_normal {a : α} (h : a ∈ normal sep here up path) : a = sep ∨ a ∈ path := by
  rw [← join_directories sep path]
  obtain h | h := List.mem_append.mp h
  · obtain ⟨seg, hseg, ha⟩ := List.mem_flatMap.mp h
    obtain ha | ha := List.mem_append.mp ha
    · obtain hseg | hseg := mem_foldl_visit hseg
      · cases hseg
      · exact .inr
          (List.mem_append_left _ (List.mem_flatMap.mpr ⟨seg, hseg, List.mem_append_left _ ha⟩))
    · exact .inl (List.mem_singleton.mp ha)
  · exact .inr (List.mem_append_right _ h)

theorem plain_directories_normal (sep : α) (here up path : List α) :
    Plain sep here up (directories sep (normal sep here up path)) := by
  have hnil : Plain sep here up [] := plain_nil
  have hplain := hnil.foldl (not_mem_directories sep path)
  rw [normal, directories_join (fun seg hseg => (hplain seg hseg).1) (not_mem_leafOf sep path)]
  exact hplain

/-- A path whose directories are plain is normal. -/
theorem normal_of_plain (h : Plain sep here up (directories sep path)) :
    normal sep here up path = path := by
  rw [normal, foldl_visit_of_plain h, List.nil_append, join_directories]

theorem normal_normal (sep : α) (here up path : List α) :
    normal sep here up (normal sep here up path) = normal sep here up path :=
  normal_of_plain (plain_directories_normal sep here up path)

end PathSegments
