import Mathlib.Data.List.Infix

/-!
# File trees

A file tree says for each path whether there is a directory, a file or nothing. The operations are
those of a file system without links: a path is a list of names from the root on.
-/

namespace PS4Droid

variable {ν β : Type*}

inductive FileNode (β : Type*) where
  | dir
  | file (bytes : List β)
  deriving DecidableEq

abbrev FileTree (ν β : Type*) := List ν → Option (FileNode β)

namespace FileTree

/-- Whatever exists lies in a directory. -/
def Closed (tree : FileTree ν β) : Prop :=
  ∀ path rest, rest ≠ [] → tree (path ++ rest) ≠ none → tree path = some .dir

/-- The two trees agree outside a directory. -/
def SameOutside (base : List ν) (tree tree' : FileTree ν β) : Prop :=
  ∀ path, ¬ base <+: path → tree' path = tree path

theorem SameOutside.refl (base : List ν) (tree : FileTree ν β) : SameOutside base tree tree :=
  fun _ _ => rfl

theorem SameOutside.trans {base : List ν} {tree₁ tree₂ tree₃ : FileTree ν β}
    (h : SameOutside base tree₁ tree₂) (h' : SameOutside base tree₂ tree₃) :
    SameOutside base tree₁ tree₃ :=
  fun path hpath => (h' path hpath).trans (h path hpath)

variable [DecidableEq ν]

def deleteRecursively (tree : FileTree ν β) (base : List ν) : FileTree ν β :=
  fun path => if base <+: path then none else tree path

/-- The directory becomes another one that does not exist yet. -/
def move (tree : FileTree ν β) (source target : List ν) : FileTree ν β :=
  fun path =>
    if target <+: path then tree (source ++ path.drop target.length)
    else if source <+: path then none
    else tree path

def set (tree : FileTree ν β) (path : List ν) (node : FileNode β) : FileTree ν β :=
  Function.update tree path (some node)

/-- Makes the directories of the list, in order, until a file is in the way. -/
def createAll (tree : FileTree ν β) : List (List ν) → FileTree ν β × Bool
  | [] => (tree, true)
  | path :: rest =>
    match tree path with
    | some .dir => createAll tree rest
    | some (.file _) => (tree, false)
    | none => createAll (tree.set path .dir) rest

/-- The directory and those it lies in. -/
def createDirectories (tree : FileTree ν β) (path : List ν) : FileTree ν β × Bool :=
  tree.createAll path.inits

section Lemmas

variable {tree tree' : FileTree ν β} {base path : List ν}

theorem deleteRecursively_append (tree : FileTree ν β) (base rest : List ν) :
    tree.deleteRecursively base (base ++ rest) = none :=
  if_pos (List.prefix_append base rest)

theorem deleteRecursively_of_not_below (h : ¬ base <+: path) :
    tree.deleteRecursively base path = tree path :=
  if_neg h

theorem move_append (tree : FileTree ν β) (source target rest : List ν) :
    tree.move source target (target ++ rest) = tree (source ++ rest) := by
  rw [move, if_pos (List.prefix_append target rest), List.drop_left]

theorem move_of_not_below {source target : List ν} (htarget : ¬ target <+: path)
    (hsource : ¬ source <+: path) : tree.move source target path = tree path := by
  rw [move, if_neg htarget, if_neg hsource]

theorem set_self (tree : FileTree ν β) (path : List ν) (node : FileNode β) :
    tree.set path node path = some node := by
  simp [set]

theorem set_of_ne {other : List ν} (h : other ≠ path) (node : FileNode β) :
    tree.set path node other = tree other := by
  simp [set, Function.update_of_ne h]

theorem sameOutside_set (h : base <+: path) (tree : FileTree ν β) (node : FileNode β) :
    SameOutside base tree (tree.set path node) := by
  intro other hother
  refine set_of_ne ?_ node
  rintro rfl
  exact hother h

/-- Each path is as before, or it is one of the list and a directory now. -/
theorem createAll_cases (tree : FileTree ν β) (paths : List (List ν)) (path : List ν) :
    (tree.createAll paths).1 path = tree path ∨
      tree path = none ∧ (tree.createAll paths).1 path = some .dir ∧ path ∈ paths := by
  induction paths generalizing tree with
  | nil => exact .inl rfl
  | cons first rest ih =>
    rw [createAll]
    split
    · obtain h | ⟨hnone, hdir, hmem⟩ := ih tree
      · exact .inl h
      · exact .inr ⟨hnone, hdir, List.mem_cons_of_mem _ hmem⟩
    · exact .inl rfl
    · rename_i hfirst
      by_cases hpath : path = first
      · subst hpath
        obtain h | ⟨hnone, -, -⟩ := ih (tree.set path .dir)
        · exact .inr ⟨hfirst, h.trans (set_self tree path .dir), List.mem_cons_self⟩
        · rw [set_self] at hnone
          cases hnone
      · have hset : tree.set first .dir path = tree path := set_of_ne hpath .dir
        obtain h | ⟨hnone, hdir, hmem⟩ := ih (tree.set first .dir)
        · exact .inl (h.trans hset)
        · exact .inr ⟨hset ▸ hnone, hdir, List.mem_cons_of_mem _ hmem⟩

variable {paths : List (List ν)}

/-- If nothing is in the way, all the directories exist. -/
theorem createAll_dir (hok : (tree.createAll paths).2 = true)
    (hmem : path ∈ paths) : (tree.createAll paths).1 path = some .dir := by
  induction paths generalizing tree with
  | nil => cases hmem
  | cons first rest ih =>
    have hkept : ∀ t : FileTree ν β, t first = some .dir →
      (t.createAll rest).1 first = some .dir := by
      intro t ht
      obtain h | ⟨-, h, -⟩ := createAll_cases t rest first
      · exact h.trans ht
      · exact h
    rw [createAll] at hok ⊢
    split at hok
    · rename_i hfirst
      obtain rfl | hmem := List.mem_cons.mp hmem
      · exact hkept tree hfirst
      · exact ih hok hmem
    · cases hok
    · obtain rfl | hmem := List.mem_cons.mp hmem
      · exact hkept _ (set_self tree path .dir)
      · exact ih hok hmem

/-- A failure means that one of the paths is a file. -/
theorem createAll_fails (hfails : (tree.createAll paths).2 = false) :
    ∃ path ∈ paths, ∃ bytes, tree path = some (.file bytes) := by
  induction paths generalizing tree with
  | nil => cases hfails
  | cons first rest ih =>
    rw [createAll] at hfails
    split at hfails
    · obtain ⟨path, hmem, hfile⟩ := ih hfails
      exact ⟨path, List.mem_cons_of_mem _ hmem, hfile⟩
    · rename_i bytes hfirst
      exact ⟨first, List.mem_cons_self, bytes, hfirst⟩
    · obtain ⟨path, hmem, bytes, hfile⟩ := ih hfails
      refine ⟨path, List.mem_cons_of_mem _ hmem, bytes, ?_⟩
      rwa [set_of_ne] at hfile
      rintro rfl
      rw [set_self] at hfile
      cases hfile

end Lemmas

end FileTree

end PS4Droid
