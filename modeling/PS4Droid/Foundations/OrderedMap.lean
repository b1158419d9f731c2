import Mathlib.Tactic

/-!
# Ordered maps as sorted association lists

A finite ordered map is a list of key/value pairs sorted by strictly increasing
key. An iterator is represented by the key it points at, which is stable under
insertion and erasure of other entries. The operations are the ones a balanced
search tree offers: the last entry at or below a key, the entries above and
below it, overwriting insertion, insertion of an absent key, and erasure.
Every operation is described by the position it acts on, `l ++ (k, a) :: r`.
-/

namespace OrderedMap

variable {α β : Type*}

/-- Keys increase strictly along the list. -/
def Sorted (m : List (ℕ × α)) : Prop := m.Pairwise fun e f => e.1 < f.1

/-- The last entry whose key is at most `k`, that is `prev (upper_bound k)`. -/
def floor : List (ℕ × α) → ℕ → Option (ℕ × α)
  | [], _ => none
  | e :: m, k => if e.1 ≤ k then some ((floor m k).getD e) else none

/-- The entries from `upper_bound k` on. -/
def above (m : List (ℕ × α)) (k : ℕ) : List (ℕ × α) := m.dropWhile fun e => e.1 ≤ k

/-- The entries before `lower_bound k`. -/
def below (m : List (ℕ × α)) (k : ℕ) : List (ℕ × α) := m.takeWhile fun e => e.1 < k

def next (m : List (ℕ × α)) (k : ℕ) : Option (ℕ × α) := (above m k).head?

def prev (m : List (ℕ × α)) (k : ℕ) : Option (ℕ × α) := (below m k).getLast?

def get? (m : List (ℕ × α)) (k : ℕ) : Option α := (m.find? fun e => e.1 = k).map Prod.snd

/-- Insert or overwrite. -/
def assign : List (ℕ × α) → ℕ → α → List (ℕ × α)
  | [], k, a => [(k, a)]
  | e :: m, k, a =>
    if e.1 < k then e :: assign m k a
    else if e.1 = k then (k, a) :: m
    else (k, a) :: e :: m

/-- Insert unless the key is present. -/
def emplace (m : List (ℕ × α)) (k : ℕ) (a : α) : List (ℕ × α) :=
  if (get? m k).isSome then m else assign m k a

def erase (m : List (ℕ × α)) (k : ℕ) : List (ℕ × α) := m.filter fun e => e.1 ≠ k

/-- `m` splits around the entry `e`; every lookup lemma is stated over this shape. -/
structure Around (m l : List (ℕ × α)) (e : ℕ × α) (r : List (ℕ × α)) : Prop where
  eq : m = l ++ e :: r
  left : ∀ f ∈ l, f.1 < e.1
  right : ∀ f ∈ r, e.1 < f.1

theorem Sorted.around {m : List (ℕ × α)} (hm : Sorted m) {e : ℕ × α} (he : e ∈ m) :
    ∃ l r, Around m l e r := by
  obtain ⟨l, r, rfl⟩ := List.append_of_mem he
  refine ⟨l, r, rfl, ?_, ?_⟩
  · intro f hf
    exact (List.pairwise_append.mp hm).2.2 f hf e (by simp)
  · intro f hf
    exact (List.pairwise_cons.mp (List.pairwise_append.mp hm).2.1).1 f hf

theorem Sorted.around_of_eq {l r : List (ℕ × α)} {e : ℕ × α} (hm : Sorted (l ++ e :: r)) :
    Around (l ++ e :: r) l e r := by
  refine ⟨rfl, ?_, ?_⟩
  · intro f hf
    exact (List.pairwise_append.mp hm).2.2 f hf e (by simp)
  · intro f hf
    exact (List.pairwise_cons.mp (List.pairwise_append.mp hm).2.1).1 f hf

/-- Sortedness only looks at the keys. -/
theorem Sorted.update {l r : List (ℕ × α)} {k : ℕ} {a : α} (h : Sorted (l ++ (k, a) :: r)) (b : α) :
    Sorted (l ++ (k, b) :: r) := by
  obtain ⟨hl, hr, hlr⟩ := List.pairwise_append.mp h
  obtain ⟨hk, hr⟩ := List.pairwise_cons.mp hr
  refine List.pairwise_append.mpr ⟨hl, List.pairwise_cons.mpr ⟨hk, hr⟩, ?_⟩
  intro e he f hf
  rcases List.mem_cons.mp hf with rfl | hf
  · exact hlr e he (k, a) (by simp)
  · exact hlr e he f (by simp [hf])

variable {f : ℕ × α}

theorem Around.succ {m l r : List (ℕ × α)} {e : ℕ × α} (hm : Sorted m)
    (ha : Around m l e (f :: r)) : Around m (l ++ [e]) f r := by
  have heq : m = (l ++ [e]) ++ f :: r := by simp [ha.eq]
  rw [heq] at hm ⊢
  exact hm.around_of_eq

theorem Around.pred {m l r : List (ℕ × α)} {e : ℕ × α} (hm : Sorted m)
    (ha : Around m (l ++ [f]) e r) : Around m l f (e :: r) := by
  have heq : m = l ++ f :: (e :: r) := by simp [ha.eq]
  rw [heq] at hm ⊢
  exact hm.around_of_eq

theorem floor_mem {m : List (ℕ × α)} {k : ℕ} {e : ℕ × α} (h : floor m k = some e) :
    e ∈ m ∧ e.1 ≤ k := by
  induction m generalizing e with
  | nil => simp [floor] at h
  | cons f m ih =>
    unfold floor at h
    split_ifs at h with hf
    cases ho : floor m k with
    | none =>
      simp only [ho, Option.getD_none, Option.some.injEq] at h
      subst h
      exact ⟨by simp, hf⟩
    | some g =>
      simp only [ho, Option.getD_some, Option.some.injEq] at h
      subst h
      exact ⟨List.mem_cons_of_mem _ (ih ho).1, (ih ho).2⟩

theorem floor_eq_none {m : List (ℕ × α)} {k : ℕ} (hm : Sorted m) (h : floor m k = none) :
    ∀ e ∈ m, k < e.1 := by
  cases m with
  | nil => simp
  | cons f m =>
    unfold floor at h
    split_ifs at h with hf
    intro e he
    rcases List.mem_cons.mp he with rfl | he
    · omega
    · have := (List.pairwise_cons.mp hm).1 e he
      omega

theorem floor_around {m : List (ℕ × α)} {k : ℕ} {e : ℕ × α} (hm : Sorted m)
    (h : floor m k = some e) : ∃ l r, Around m l e r ∧ e.1 ≤ k ∧ ∀ f ∈ r, k < f.1 := by
  induction m generalizing e with
  | nil => simp [floor] at h
  | cons f m ih =>
    have hm' := List.pairwise_cons.mp hm
    unfold floor at h
    split_ifs at h with hf
    cases ho : floor m k with
    | none =>
      simp only [ho, Option.getD_none, Option.some.injEq] at h
      subst h
      exact ⟨[], m, ⟨rfl, by simp, hm'.1⟩, hf, floor_eq_none hm'.2 ho⟩
    | some g =>
      simp only [ho, Option.getD_some, Option.some.injEq] at h
      subst h
      obtain ⟨l, r, ha, hk, hr⟩ := ih hm'.2 ho
      refine ⟨f :: l, r, ⟨by simp [ha.eq], ?_, ha.right⟩, hk, hr⟩
      intro x hx
      rcases List.mem_cons.mp hx with rfl | hx
      · exact hm'.1 g (floor_mem ho).1
      · exact ha.left x hx

theorem floor_eq_of_around {m l r : List (ℕ × α)} {e : ℕ × α} {k : ℕ} (ha : Around m l e r)
    (hk : e.1 ≤ k) (hr : ∀ f ∈ r, k < f.1) : floor m k = some e := by
  obtain ⟨rfl, hl, -⟩ := ha
  induction l with
  | nil =>
    cases r with
    | nil => simp [floor, hk]
    | cons f r =>
      have hf := hr f (by simp)
      simp [floor, hk, Nat.not_le.mpr hf]
  | cons f l ih =>
    have hf := hl f (by simp)
    have := ih (fun x hx => hl x (List.mem_cons_of_mem _ hx))
    simp [floor, this, show f.1 ≤ k by omega]

section Around

variable {m l r : List (ℕ × α)} {e : ℕ × α}

theorem Around.mem (ha : Around m l e r) : e ∈ m := by simp [ha.eq]

theorem Around.get? (ha : Around m l e r) : get? m e.1 = some e.2 := by
  have hl : l.find? (fun f => f.1 = e.1) = none := by
    simp only [List.find?_eq_none, decide_eq_true_eq]
    intro f hf
    have := ha.left f hf
    omega
  simp [OrderedMap.get?, ha.eq, List.find?_append, hl]

theorem Around.above (ha : Around m l e r) : above m e.1 = r := by
  obtain ⟨rfl, hl, hr⟩ := ha
  induction l with
  | nil =>
    cases r with
    | nil => simp [OrderedMap.above]
    | cons f r => simp [OrderedMap.above, hr f (by simp)]
  | cons f l ih =>
    have := ih (fun x hx => hl x (List.mem_cons_of_mem _ hx))
    have hf := hl f (by simp)
    simpa [OrderedMap.above, hf.le] using this

theorem Around.below (ha : Around m l e r) : below m e.1 = l := by
  obtain ⟨rfl, hl, hr⟩ := ha
  induction l with
  | nil => simp [OrderedMap.below]
  | cons f l ih =>
    have := ih (fun x hx => hl x (List.mem_cons_of_mem _ hx))
    have hf := hl f (by simp)
    simpa [OrderedMap.below, hf] using this

theorem Around.next (ha : Around m l e r) : next m e.1 = r.head? := by
  simp [OrderedMap.next, ha.above]

theorem Around.prev (ha : Around m l e r) : prev m e.1 = l.getLast? := by
  simp [OrderedMap.prev, ha.below]

theorem Around.assign (ha : Around m l e r) (b : α) : assign m e.1 b = l ++ (e.1, b) :: r := by
  obtain ⟨rfl, hl, hr⟩ := ha
  induction l with
  | nil => simp [OrderedMap.assign]
  | cons f l ih =>
    have := ih (fun x hx => hl x (List.mem_cons_of_mem _ hx))
    simp [OrderedMap.assign, hl f (by simp), this]

theorem Around.assign_around (ha : Around m l e r) (b : α) :
    Around (OrderedMap.assign m e.1 b) l (e.1, b) r :=
  ⟨ha.assign b, ha.left, ha.right⟩

theorem Around.sorted_assign (hm : Sorted m) (ha : Around m l e r) (b : α) :
    Sorted (OrderedMap.assign m e.1 b) := by
  rw [ha.assign b]
  exact (ha.eq ▸ hm : Sorted (l ++ (e.1, e.2) :: r)).update b

theorem Around.erase (ha : Around m l e r) : erase m e.1 = l ++ r := by
  have hl : l.filter (fun f => decide (f.1 ≠ e.1)) = l := by
    rw [List.filter_eq_self]
    intro f hf
    have := ha.left f hf
    simp only [decide_eq_true_eq]
    omega
  have hr : r.filter (fun f => decide (f.1 ≠ e.1)) = r := by
    rw [List.filter_eq_self]
    intro f hf
    have := ha.right f hf
    simp only [decide_eq_true_eq]
    omega
  simp only [OrderedMap.erase, ha.eq, List.filter_append, List.filter_cons, hl, hr]
  simp

/-- Inserting a fresh key between an entry and its successors places it there. -/
theorem Around.emplace_after (ha : Around m l e r) {k : ℕ} (a : α) (hk : e.1 < k)
    (hr : ∀ f ∈ r, k < f.1) : emplace m k a = l ++ e :: (k, a) :: r := by
  have hnone : OrderedMap.get? m k = none := by
    simp only [OrderedMap.get?, Option.map_eq_none_iff, List.find?_eq_none, decide_eq_true_eq,
      ha.eq, List.mem_append, List.mem_cons]
    rintro f (hf | rfl | hf)
    · have := ha.left f hf
      omega
    · omega
    · have := hr f hf
      omega
  have hassign : ∀ l : List (ℕ × α), (∀ f ∈ l, f.1 < e.1) →
      OrderedMap.assign (l ++ e :: r) k a = l ++ e :: (k, a) :: r := by
    intro l hl
    induction l with
    | nil =>
      cases r with
      | nil => simp [OrderedMap.assign, hk]
      | cons f r =>
        have hf := hr f (by simp)
        simp [OrderedMap.assign, hk, Nat.not_lt.mpr hf.le, hf.ne']
    | cons f l ih =>
      have hf := hl f (by simp)
      simp [OrderedMap.assign, hf.trans hk, ih (fun x hx => hl x (List.mem_cons_of_mem _ hx))]
  rw [emplace, if_neg (by simp [hnone]), ha.eq]
  exact hassign l ha.left

end Around

theorem get?_around {m : List (ℕ × α)} {k : ℕ} {a : α} (hm : Sorted m) (h : get? m k = some a) :
    ∃ l r, Around m l (k, a) r := by
  unfold get? at h
  cases hf : m.find? fun e => e.1 = k with
  | none => simp [hf] at h
  | some e =>
    simp only [hf, Option.map_some, Option.some.injEq] at h
    have hmem := List.mem_of_find?_eq_some hf
    have hk := List.find?_some hf
    simp only [decide_eq_true_eq] at hk
    obtain ⟨l, r, ha⟩ := hm.around hmem
    obtain rfl : e = (k, a) := Prod.ext hk h
    exact ⟨l, r, ha⟩

/-! ### Entries up to their order -/

section Perm

variable {m : List (ℕ × α)} {k : ℕ} {a : α}

theorem mem_assign_key {e : ℕ × α} (he : e ∈ assign m k a) : e ∈ m ∨ e = (k, a) := by
  induction m with
  | nil =>
    simp only [assign, List.mem_singleton] at he
    exact .inr he
  | cons f m ih =>
    unfold assign at he
    split_ifs at he
    · rcases List.mem_cons.mp he with rfl | he
      · exact .inl (.head _)
      · exact (ih he).imp_left (.tail _)
    · rcases List.mem_cons.mp he with rfl | he
      · exact .inr rfl
      · exact .inl (.tail _ he)
    · rcases List.mem_cons.mp he with rfl | he
      · exact .inr rfl
      · exact .inl he

theorem sorted_assign (hm : Sorted m) (k : ℕ) (a : α) : Sorted (assign m k a) := by
  induction m with
  | nil => exact List.pairwise_singleton _ _
  | cons f m ih =>
    obtain ⟨hf, hm⟩ := List.pairwise_cons.mp hm
    unfold assign
    split_ifs with hlt heq
    · refine List.pairwise_cons.mpr ⟨fun e he => ?_, ih hm⟩
      rcases mem_assign_key he with he | rfl
      · exact hf e he
      · exact hlt
    · refine List.pairwise_cons.mpr ⟨fun e he => ?_, hm⟩
      rw [← heq]
      exact hf e he
    · refine List.pairwise_cons.mpr ⟨fun e he => ?_, List.pairwise_cons.mpr ⟨hf, hm⟩⟩
      rcases List.mem_cons.mp he with rfl | he
      · simp only
        omega
      · have := hf e he
        simp only
        omega

theorem sorted_erase (hm : Sorted m) (k : ℕ) : Sorted (erase m k) :=
  hm.sublist List.filter_sublist

theorem get?_eq_none (h : get? m k = none) : ∀ e ∈ m, e.1 ≠ k := by
  intro e he hk
  simp only [get?, Option.map_eq_none_iff, List.find?_eq_none, decide_eq_true_eq] at h
  exact h e he hk

theorem get?_eq_some_of_mem (hm : Sorted m) (he : (k, a) ∈ m) : get? m k = some a := by
  obtain ⟨l, r, ha⟩ := hm.around he
  exact ha.get?

theorem mem_of_get? (hm : Sorted m) (h : get? m k = some a) : (k, a) ∈ m := by
  obtain ⟨l, r, ha⟩ := get?_around hm h
  exact ha.mem

/-- A new key adds one entry. -/
theorem perm_assign (hk : ∀ e ∈ m, e.1 ≠ k) (a : α) : (assign m k a).Perm ((k, a) :: m) := by
  induction m with
  | nil => exact .refl _
  | cons f m ih =>
    unfold assign
    have hf := hk f (.head _)
    split_ifs with hlt
    · exact ((ih fun e he => hk e (.tail _ he)).cons f).trans (.swap _ _ _)
    · exact .refl _

/-- Erasing a key takes one entry away. -/
theorem perm_erase (hm : Sorted m) (he : (k, a) ∈ m) : m.Perm ((k, a) :: erase m k) := by
  obtain ⟨l, r, ha⟩ := hm.around he
  rw [show erase m k = l ++ r from ha.erase, ha.eq]
  exact List.perm_middle

/-- Overwriting a key exchanges one entry. -/
theorem perm_reassign (hm : Sorted m) (he : (k, a) ∈ m) (b : α) :
    (assign m k b).Perm ((k, b) :: erase m k) := by
  obtain ⟨l, r, ha⟩ := hm.around he
  rw [show erase m k = l ++ r from ha.erase, show assign m k b = l ++ (k, b) :: r from ha.assign b]
  exact List.perm_middle

theorem mem_erase_iff {e : ℕ × α} : e ∈ erase m k ↔ e ∈ m ∧ e.1 ≠ k := by
  simp [erase]

/-- A new key goes between the smaller and the larger ones. -/
theorem around_assign (hm : Sorted m) (hk : ∀ e ∈ m, e.1 ≠ k) (a : α) :
    ∃ l r, m = l ++ r ∧ Around (assign m k a) l (k, a) r := by
  have hmem : (k, a) ∈ assign m k a := (perm_assign hk a).mem_iff.mpr (.head _)
  obtain ⟨l, r, ha⟩ := (sorted_assign hm k a).around hmem
  refine ⟨l, r, ?_, ha⟩
  have hperm : m.Perm (l ++ r) := by
    have h := (perm_assign hk a).symm.trans (ha.eq ▸ List.perm_middle)
    exact h.cons_inv
  have hsorted : Sorted (l ++ r) := by
    have h := sorted_erase (sorted_assign hm k a) k
    rwa [show erase (assign m k a) k = l ++ r from ha.erase] at h
  refine hperm.eq_of_pairwise (fun e f he hf h1 h2 => ?_) hm hsorted
  exact absurd h1 h2.asymm

end Perm

end OrderedMap
