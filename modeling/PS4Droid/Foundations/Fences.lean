import Mathlib.Data.List.Chain

/-!
# Fences between accesses

Two accesses of different kinds conflict, two of one kind may. In a list of instructions, and along
the paths of a graph of blocks, there is a fence between conflicting accesses exactly if none
reaches the next one unfenced.
-/

namespace PS4Droid.Fences

inductive Event (κ : Type*)
  | access (kind : κ)
  | fence
  | other
  deriving DecidableEq

variable {α β κ : Type*} (event : α → Event κ)

/-- The access that no fence follows, from the one before the instruction. -/
def pend (pending : Option κ) (x : α) : Option κ :=
  match event x with
  | .access k => some k
  | .fence => none
  | .other => pending

def pending (p : Option κ) (l : List α) : Option κ := l.foldl (pend event) p

/-- The first access, unless a fence is in front of it. -/
def entry : List α → Option κ
  | [] => none
  | x :: l =>
    match event x with
    | .access k => some k
    | .fence => none
    | .other => entry l

/-- The instructions determine what is pending behind them. -/
def Settles (l : List α) : Prop := ∃ x ∈ l, event x ≠ .other

variable {event} {x : α} {l l' : List α} {p : Option κ} {a b : κ}

theorem pending_append : pending event p (l ++ l') = pending event (pending event p l) l' :=
  List.foldl_append

/-- Behind instructions that settle, what was pending before them does not matter. -/
theorem pending_of_settles (h : Settles event l) : pending event p l = pending event none l := by
  induction l generalizing p with
  | nil =>
    obtain ⟨x, hx, -⟩ := h
    cases hx
  | cons x l ih =>
    show pending event (pend event p x) l = pending event (pend event none x) l
    cases hx : event x with
    | access k => simp only [pend, hx]
    | fence => simp only [pend, hx]
    | other =>
      obtain ⟨y, hy, hne⟩ := h
      rcases List.mem_cons.mp hy with rfl | hy
      · exact absurd hx hne
      · exact (ih ⟨y, hy, hne⟩).trans (ih ⟨y, hy, hne⟩).symm

theorem pending_of_not_settles (h : ¬Settles event l) : pending event p l = p := by
  induction l with
  | nil => rfl
  | cons x l ih =>
    have hx : event x = .other := by
      by_contra hne
      exact h ⟨x, .head _, hne⟩
    have hrest : ¬Settles event l := fun ⟨y, hy, hne⟩ => h ⟨y, .tail _ hy, hne⟩
    show pending event (pend event p x) l = p
    rw [pend, hx]
    exact ih hrest

theorem entry_append (h : entry event l' = none) : entry event (l ++ l') = entry event l := by
  induction l with
  | nil => exact h
  | cons x l ih =>
    rw [List.cons_append, entry, entry, ih]

theorem entry_of_not_settles (h : ¬Settles event l) : entry event (l ++ l') = entry event l' := by
  induction l with
  | nil => rfl
  | cons x l ih =>
    have hx : event x = .other := by
      by_contra hne
      exact h ⟨x, .head _, hne⟩
    have hrest : ¬Settles event l := fun ⟨y, hy, hne⟩ => h ⟨y, .tail _ hy, hne⟩
    rw [List.cons_append, entry, hx]
    exact ih hrest

/-- Which kinds of accesses conflict. -/
class Conflicts (κ : Type*) where
  conflict : κ → κ → Prop
  of_ne : ∀ {a b}, a ≠ b → conflict a b

open Conflicts

variable [Conflicts κ]

theorem Conflicts.eq_of_not {a b : κ} (h : ¬conflict a b) : a = b := by
  by_contra hne
  exact h (of_ne hne)

section Separation

variable (event)

/-- Between two accesses that conflict there is a fence. -/
def Separated (l : List α) : Prop :=
  ∀ before x between y behind a b, l = before ++ x :: (between ++ y :: behind) →
    event x = .access a → event y = .access b → conflict a b → ∃ z ∈ between, event z = .fence

/-- In front of every access that conflicts with `a` there is a fence. -/
def Guarded (a : κ) (l : List α) : Prop :=
  ∀ between y behind b, l = between ++ y :: behind → event y = .access b → conflict a b →
    ∃ z ∈ between, event z = .fence

/-- No access meets a pending one that it conflicts with. -/
def Safe : Option κ → List α → Prop
  | _, [] => True
  | p, x :: l => (∀ a b, p = some a → event x = .access b → ¬conflict a b) ∧ Safe (pend event p x) l

end Separation

theorem guarded_cons : Guarded event a (x :: l) ↔
    event x = .fence ∨ (∀ b, event x = .access b → ¬conflict a b) ∧ Guarded event a l := by
  constructor
  · intro h
    by_cases hfence : event x = .fence
    · exact .inl hfence
    refine .inr ⟨fun b hb hab => ?_, fun between y behind b heq hy hab => ?_⟩
    · obtain ⟨z, hz, -⟩ := h [] x l b rfl hb hab
      cases hz
    · obtain ⟨z, hz, hzf⟩ := h (x :: between) y behind b (by rw [heq]; rfl) hy hab
      rcases List.mem_cons.mp hz with rfl | hz
      · exact absurd hzf hfence
      · exact ⟨z, hz, hzf⟩
  · intro h between y behind b heq hy hab
    cases between with
    | nil =>
      obtain ⟨rfl, rfl⟩ := List.cons.inj heq
      rcases h with h | ⟨h, -⟩
      · rw [h] at hy
        cases hy
      · exact absurd hab (h b hy)
    | cons z between =>
      obtain ⟨rfl, rfl⟩ := List.cons.inj heq
      rcases h with h | ⟨-, h⟩
      · exact ⟨x, .head _, h⟩
      · obtain ⟨z, hz, hzf⟩ := h between y behind b rfl hy hab
        exact ⟨z, .tail _ hz, hzf⟩

theorem separated_cons : Separated event (x :: l) ↔
    (∀ a, event x = .access a → Guarded event a l) ∧ Separated event l := by
  constructor
  · intro h
    refine ⟨fun a hx between y behind b heq hy hab => ?_, fun before y between z behind a b heq =>
      ?_⟩
    · exact h [] x between y behind a b (by rw [heq]; rfl) hx hy hab
    · exact h (x :: before) y between z behind a b (by rw [heq]; rfl)
  · rintro ⟨hguarded, hsep⟩ before y between z behind a b heq hy hz hab
    cases before with
    | nil =>
      obtain ⟨rfl, rfl⟩ := List.cons.inj heq
      exact hguarded a hy between z behind b rfl hz hab
    | cons w before =>
      obtain ⟨rfl, rfl⟩ := List.cons.inj heq
      exact hsep before y between z behind a b rfl hy hz hab

theorem safe_iff : Safe event p l ↔ (∀ a, p = some a → Guarded event a l) ∧ Separated event l := by
  induction l generalizing p with
  | nil =>
    refine iff_of_true trivial ⟨fun a _ between y behind b heq => ?_,
      fun before y between z behind a b heq => ?_⟩
    · exact absurd heq.symm (by simp)
    · exact absurd heq.symm (by simp)
  | cons x l ih =>
    rw [Safe, ih, separated_cons]
    simp only [guarded_cons, pend]
    cases hx : event x with
    | access k =>
      constructor
      · rintro ⟨hsame, hguarded, hsep⟩
        have hk := hguarded k rfl
        refine ⟨fun a ha => .inr ⟨fun b hb => hsame a b ha hb, ?_⟩, fun a ha => ?_, hsep⟩
        · obtain rfl := eq_of_not (hsame a k ha rfl)
          exact hk
        · obtain rfl := Event.access.inj ha
          exact hk
      · rintro ⟨hp, hguarded, hsep⟩
        refine ⟨fun a b ha hb => ((hp a ha).resolve_left nofun).1 b hb, fun a ha => ?_, hsep⟩
        obtain rfl := Option.some.inj ha
        exact hguarded k rfl
    | fence =>
      constructor
      · exact fun h => ⟨fun _ _ => .inl rfl, nofun, h.2.2⟩
      · exact fun h => ⟨nofun, nofun, h.2.2⟩
    | other =>
      constructor
      · exact fun h => ⟨fun a ha => .inr ⟨nofun, h.2.1 a ha⟩, nofun, h.2.2⟩
      · exact fun h => ⟨nofun, fun a ha => ((h.1 a ha).resolve_left nofun).2, h.2.2⟩

theorem separated_iff : Separated event l ↔ Safe event none l := by
  rw [safe_iff]
  exact (and_iff_right nofun).symm

theorem safe_append :
    Safe event p (l ++ l') ↔ Safe event p l ∧ Safe event (pending event p l) l' := by
  induction l generalizing p with
  | nil => exact (and_iff_right trivial).symm
  | cons x l ih =>
    rw [List.cons_append, Safe, Safe, ih, and_assoc]
    rfl

/-- What is pending in front matters for the first access only. -/
theorem safe_iff_entry :
    Safe event p l ↔ Safe event none l ∧ ∀ a b, p = some a → entry event l = some b →
      ¬conflict a b := by
  induction l generalizing p with
  | nil => exact iff_of_true trivial ⟨trivial, nofun⟩
  | cons x l ih =>
    rw [Safe, Safe, entry]
    cases hx : event x with
    | access k =>
      simp only [pend, hx]
      constructor
      · exact fun h =>
          ⟨⟨nofun, h.2⟩, fun a b ha hb => h.1 a b ha (congrArg Event.access (Option.some.inj hb))⟩
      · exact fun h => ⟨fun a b ha hb => h.2 a b ha (congrArg some (Event.access.inj hb)), h.1.2⟩
    | fence =>
      simp only [pend, hx]
      exact ⟨fun h => ⟨⟨nofun, h.2⟩, nofun⟩, fun h => ⟨nofun, h.1.2⟩⟩
    | other =>
      simp only [pend, hx]
      rw [ih]
      exact ⟨fun h => ⟨⟨nofun, h.2.1⟩, h.2.2⟩, fun h => ⟨nofun, h.1.2, h.2⟩⟩

/-! ### Paths -/

section Paths

variable (edge : β → β → Prop) (inside : β → Prop) (instrs : β → List α)

/-- A path through blocks of the region. -/
structure IsPath (path : List β) : Prop where
  chain : path.IsChain edge
  inside : ∀ b ∈ path, inside b

variable {edge inside instrs} {path : List β}

theorem IsPath.middle {before behind : List β}
    (h : IsPath edge inside (before ++ (path ++ behind))) :
    IsPath edge inside path :=
  have hchain := List.IsChain.infix h.chain ⟨before, behind, by simp⟩
  ⟨hchain, fun b hb => h.inside b (by simp [hb])⟩

omit [Conflicts κ] in
/-- What is pending behind a path is what its last settling block leaves. -/
theorem exists_of_pending (h : pending event none (path.flatMap instrs) = some a) :
    ∃ before A between, path = before ++ A :: between ∧ pending event none (instrs A) = some a ∧
      ∀ m ∈ between, ¬Settles event (instrs m) := by
  induction path using List.reverseRecOn with
  | nil => cases h
  | append_singleton path last ih =>
    rw [List.flatMap_append, List.flatMap_singleton, pending_append] at h
    by_cases hsettles : Settles event (instrs last)
    · rw [pending_of_settles hsettles] at h
      exact ⟨path, last, [], rfl, h, nofun⟩
    · rw [pending_of_not_settles hsettles] at h
      obtain ⟨before, A, between, rfl, hA, hbetween⟩ := ih h
      refine ⟨before, A, between ++ [last], by simp, hA, fun m hm => ?_⟩
      rcases List.mem_append.mp hm with hm | hm
      · exact hbetween m hm
      · obtain rfl := List.mem_singleton.mp hm
        exact hsettles

/-- No path leads from an unfenced access to an unfenced one that it conflicts with. -/
def NoConflict (event : α → Event κ) (edge : β → β → Prop) (inside : β → Prop)
    (instrs : β → List α) : Prop :=
  ∀ A between B, IsPath edge inside (A :: (between ++ [B])) →
    (∀ m ∈ between, ¬Settles event (instrs m)) →
    ∀ a b, pending event none (instrs A) = some a → entry event (instrs B) = some b → ¬conflict a b

theorem separated_paths_iff :
    (∀ path, IsPath edge inside path → Separated event (path.flatMap instrs)) ↔
    (∀ b, inside b → Separated event (instrs b)) ∧ NoConflict event edge inside instrs := by
  constructor
  · intro h
    refine ⟨fun b hb => ?_, fun A between B hpath hbetween a b hA hB => ?_⟩
    · have hone := h [b] ⟨.singleton b, List.forall_mem_singleton.mpr hb⟩
      rwa [List.flatMap_singleton] at hone
    · have hsafe := separated_iff.mp (h _ hpath)
      have hunsettled : ¬Settles event (between.flatMap instrs) := by
        rintro ⟨x, hx, hne⟩
        obtain ⟨m, hm, hx⟩ := List.mem_flatMap.mp hx
        exact hbetween m hm ⟨x, hx, hne⟩
      rw [List.flatMap_cons, List.flatMap_append, List.flatMap_singleton, safe_append, safe_append,
        pending_of_not_settles hunsettled] at hsafe
      exact (safe_iff_entry.mp hsafe.2.2).2 a b hA hB
  · rintro ⟨hblocks, hnone⟩ path
    rw [separated_iff]
    induction path using List.reverseRecOn with
    | nil => exact fun _ => trivial
    | append_singleton path last ih =>
      intro hpath
      have hbefore : IsPath edge inside path := @IsPath.middle _ _ _ path [] [last] hpath
      rw [List.flatMap_append, List.flatMap_singleton, safe_append]
      have hlast := separated_iff.mp (hblocks last (hpath.inside last (by simp)))
      refine ⟨ih hbefore, safe_iff_entry.mpr ⟨hlast, fun a b ha hb => ?_⟩⟩
      obtain ⟨before, A, between, rfl, hA, hbetween⟩ := exists_of_pending ha
      have hpath' : IsPath edge inside (before ++ ((A :: (between ++ [last])) ++ [])) := by
        simpa using hpath
      exact hnone A between last hpath'.middle hbetween a b hA hb

end Paths

end PS4Droid.Fences
