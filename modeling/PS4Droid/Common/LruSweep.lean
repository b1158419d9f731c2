import PS4Droid.Common.LruCache
import Mathlib.Algebra.Ring.Nat
import Mathlib.Data.Finset.Card

/-!
# Iterating over old items

`ForEachItemBelow` applies its callback to the items in the order of their last use, up to a tick.
What it is meant to do with a callback that answers with a `bool` is to stop behind the first answer
`true`.
-/

namespace PS4Droid.Common.LruCache

open LinkedNodes

variable {Obj σ : Type} {c : LruCache Obj} {ids l r : List ℕ} {now t : UInt64}
  {func : σ → Obj → σ × Answer} {s : σ}

/-- The items up to and including the first one for which the callback answers `true`. -/
def upToStop (c : LruCache Obj) (func : σ → Obj → σ × Answer) : σ → List ℕ → List ℕ
  | _, [] => []
  | s, id :: ids =>
    let (s, answer) := func s (c.itemPool id).obj
    id :: if answer.stop then [] else upToStop c func s ids

/-- The callback answers `true` for no item, but perhaps for the last one. -/
def StopsAtLast (c : LruCache Obj) (func : σ → Obj → σ × Answer) : σ → List ℕ → Prop
  | _, [] => True
  | s, id :: ids =>
    ids = [] ∨ ((func s (c.itemPool id).obj).2.stop = false ∧
      StopsAtLast c func (func s (c.itemPool id).obj).1 ids)

/-- The live items of tick at most `t`, in the order of the list. -/
def below (c : LruCache Obj) (t : UInt64) (ids : List ℕ) : List ℕ :=
  ids.filter fun id => c.tick id ≤ t

/-- Two ticks that the casts to `s64` keep in order. -/
def SameHalf (t u : UInt64) : Prop := t.toNat < 2 ^ 63 ↔ u.toNat < 2 ^ 63

/-- The items that the loop looks at up to tick `t`: those below it and the one behind them. -/
def lookedAt (c : LruCache Obj) (t : UInt64) (ids : List ℕ) : List ℕ :=
  ids.take ((below c t ids).length + 1)

theorem upToStop_eq_self : upToStop c func s ids = ids ↔ StopsAtLast c func s ids := by
  induction ids generalizing s with
  | nil => simp [upToStop, StopsAtLast]
  | cons id ids ih =>
    rw [upToStop, StopsAtLast, ← ih]
    cases hstop : (func s (c.itemPool id).obj).2.stop with
    | true => simp [hstop, eq_comm]
    | false =>
      cases ids with
      | nil => simp [upToStop]
      | cons => simp [hstop]

variable {id : ℕ} {u : UInt64}

theorem below_cons_of_le (h : c.tick id ≤ t) : below c t (id :: ids) = id :: below c t ids := by
  simp [below, h]

/-- In a sorted list everything behind an item above `t` is above it too. -/
theorem below_cons_of_lt (hsorted : (id :: ids).Pairwise fun x y => c.tick x ≤ c.tick y)
    (h : ¬c.tick id ≤ t) : below c t (id :: ids) = [] := by
  refine List.filter_eq_nil_iff.mpr fun x hx => ?_
  rcases List.mem_cons.mp hx with rfl | hx
  · simpa using h
  · have hle := (List.pairwise_cons.mp hsorted).1 x hx
    simp only [UInt64.le_iff_toNat_le, decide_eq_true_eq] at *
    omega

/-! ### The signed difference -/

theorem toInt_eq (t : UInt64) :
    t.toInt64.toInt = if t.toNat < 2 ^ 63 then (t.toNat : ℤ) else (t.toNat : ℤ) - 2 ^ 64 := by
  have h := BitVec.toInt_eq_toNat_cond t.toBitVec
  change t.toInt64.toInt = if 2 * t.toNat < 2 ^ 64 then (t.toNat : ℤ)
    else (t.toNat : ℤ) - ((2 ^ 64 : ℕ) : ℤ) at h
  rw [h]
  by_cases ht : t.toNat < 2 ^ 63
  · rw [if_pos (by omega), if_pos ht]
  · rw [if_neg (by omega), if_neg ht]
    rfl

/-- Within one half of the range the signed difference tells the order. -/
theorem difference_same (h : SameHalf t u) : ∃ d, difference t u = .ok d ∧ (d < 0 ↔ ¬u ≤ t) := by
  have ht := t.toNat_lt
  have hu := u.toNat_lt
  unfold difference SameHalf at *
  rw [toInt_eq, toInt_eq, UInt64.le_iff_toNat_le]
  by_cases hlt : t.toNat < 2 ^ 63
  · rw [if_pos hlt, if_pos (h.mp hlt)]
    have hu' := h.mp hlt
    refine ⟨(t.toNat : ℤ) - u.toNat, if_pos ?_, ?_⟩ <;> omega
  · rw [if_neg hlt, if_neg (fun hu => hlt (h.mpr hu))]
    refine ⟨(t.toNat : ℤ) - 2 ^ 64 - (u.toNat - 2 ^ 64), if_pos ?_, ?_⟩ <;> omega

/-- Across the halves it tells the opposite order, if it does not overflow. -/
theorem difference_other {d : ℤ} (h : ¬SameHalf t u) (hd : difference t u = .ok d) :
    d < 0 ↔ u ≤ t := by
  have ht := t.toNat_lt
  have hu := u.toNat_lt
  have hd' : d = t.toInt64.toInt - u.toInt64.toInt := by
    unfold difference at hd
    dsimp only at hd
    split_ifs at hd
    cases hd
    rfl
  rw [toInt_eq, toInt_eq] at hd'
  rw [UInt64.le_iff_toNat_le]
  unfold SameHalf at h
  split_ifs at hd' <;> omega

/-! ### The loop -/

/-- The items that the loop visits when it starts at the first of `ids`; this is a function of their
ticks alone. -/
def visited (c : LruCache Obj) (t : UInt64) : List ℕ → Except Fault (List ℕ)
  | [] => .ok []
  | id :: ids => do
    if (← difference t (c.tick id)) < 0 then
      return []
    else
      return id :: (← visited c t ids)

theorem visited_congr {c' : LruCache Obj} (h : c'.tick = c.tick) (ids : List ℕ) :
    visited c' t ids = visited c t ids := by
  induction ids with
  | nil => rfl
  | cons id ids ih => rw [visited, visited, ih, h]

/-- What a call did: the items it visited and the cache afterwards, in which the list is in order
again. -/
structure Swept (c : LruCache Obj) (now : UInt64) (c' : LruCache Obj) : Prop where
  ordered : ∃ ids, Ordered c' ids now
  tick_eq : c'.tick = c.tick
  obj_eq : ∀ id, (c'.itemPool id).obj = (c.itemPool id).obj

theorem free_keeps (c : LruCache Obj) (id : ℕ) :
    (c.free id).tick = c.tick ∧ ∀ x, ((c.free id).itemPool x).obj = (c.itemPool x).obj := by
  have h :=
    ((detach_relinks c id).trans (setPrev_relinks _ id none)).trans (setNext_relinks _ id none)
  exact ⟨h.tick_eq, h.obj_eq⟩

/-- The loop visits `visited`, whatever the callback answers and whichever of its items it frees. -/
theorem forEach_spec (fuel : ℕ) (h : Ordered c (l ++ r) now) (hfuel : r.length ≤ fuel) :
    match visited c t r with
    | .error e => forEach t func fuel r.head? s c = .error e
    | .ok ids => ∃ s' c', forEach t func fuel r.head? s c = .ok (ids, s', c') ∧ Swept c now c' := by
  induction r generalizing l fuel s c with
  | nil => exact ⟨s, c, by cases fuel <;> rfl, ⟨_, h⟩, rfl, fun _ => rfl⟩
  | cons id r ih =>
    obtain ⟨fuel, rfl⟩ := Nat.exists_eq_add_one_of_ne_zero (by simp at hfuel; omega : fuel ≠ 0)
    have hnext : c.next id = r.head? := h.links.segment.node.2
    simp only [visited, List.head?_cons, forEach, hnext]
    cases hd : difference t (c.tick id) with
    | error e => rfl
    | ok d =>
      simp only [bind, Except.bind, pure, Except.pure]
      by_cases hneg : d < 0
      · simp only [if_pos hneg]
        exact ⟨s, c, rfl, ⟨_, h⟩, rfl, fun _ => rfl⟩
      · simp only [if_neg hneg]
        -- The callback may take the item out of the list; the rest of the list is still linked.
        have hstep : ∃ l',
          Ordered (if (func s (c.itemPool id).obj).2.frees then c.free id else c) (l' ++ r) now ∧
            (if (func s (c.itemPool id).obj).2.frees then c.free id else c).tick = c.tick ∧
            ∀ x, ((if (func s (c.itemPool id).obj).2.frees then c.free id else c).itemPool x).obj =
              (c.itemPool x).obj := by
          split_ifs
          · exact ⟨l, h.free, free_keeps c id⟩
          · exact ⟨l ++ [id], by simpa using h, rfl, fun _ => rfl⟩
        generalize (if (func s (c.itemPool id).obj).2.frees then c.free id else c) = c₁ at hstep ⊢
        obtain ⟨l', h₁, htick, hobj⟩ := hstep
        have hrest := ih fuel h₁ (by simpa using hfuel) (s := (func s (c.itemPool id).obj).1)
        rw [visited_congr htick] at hrest
        cases hv : visited c t r with
        | error e =>
          simp only [hv] at hrest ⊢
          rw [hrest]
        | ok ids =>
          simp only [hv] at hrest ⊢
          obtain ⟨s', c', hrun, hswept⟩ := hrest
          rw [hrun]
          exact ⟨s', c', rfl, hswept.ordered, hswept.tick_eq.trans htick,
            fun x => (hswept.obj_eq x).trans (hobj x)⟩

/-- The loop visits the items below the tick exactly when it compares no tick across the halves. -/
theorem visited_below (hsorted : ids.Pairwise fun x y => c.tick x ≤ c.tick y)
    (h : ∀ id ∈ lookedAt c t ids, SameHalf t (c.tick id)) :
    visited c t ids = .ok (below c t ids) := by
  induction ids with
  | nil => rfl
  | cons id ids ih =>
    obtain ⟨d, hd, hneg⟩ := difference_same (h id (by simp [lookedAt]))
    simp only [visited, hd, bind, Except.bind, pure, Except.pure]
    by_cases hle : c.tick id ≤ t
    · rw [if_neg (fun h => (hneg.mp h) hle), ih (List.pairwise_cons.mp hsorted).2]
      · rw [below_cons_of_le hle]
      · intro x hx
        refine h x ?_
        rw [lookedAt, below_cons_of_le hle, List.length_cons, List.take_succ_cons]
        exact List.mem_cons_of_mem _ hx
    · rw [if_pos (hneg.mpr hle), below_cons_of_lt hsorted hle]

theorem mem_of_upToStop (h : id ∈ upToStop c func s ids) : id ∈ ids := by
  induction ids generalizing s with
  | nil => exact h
  | cons x ids ih =>
    rw [upToStop] at h
    rcases List.mem_cons.mp h with rfl | h
    · simp
    · split_ifs at h
      · cases h
      · exact List.mem_cons_of_mem _ (ih h)

/-- Below 2^63, a loop that visits nothing above the tick compares no tick across the halves. -/
theorem sameHalf_of_low {v : List ℕ} (hlow : t.toNat < 2 ^ 63) (hv : visited c t ids = .ok v)
    (hle : ∀ x ∈ v, c.tick x ≤ t) (hsorted : ids.Pairwise fun x y => c.tick x ≤ c.tick y) :
    ∀ id ∈ lookedAt c t ids, SameHalf t (c.tick id) := by
  induction ids generalizing v with
  | nil => simp [lookedAt]
  | cons id ids ih =>
    by_cases htick : c.tick id ≤ t
    · have hsame : SameHalf t (c.tick id) := by
        have := UInt64.le_iff_toNat_le.mp htick
        exact ⟨fun _ => by omega, fun _ => hlow⟩
      obtain ⟨d, hd, hneg⟩ := difference_same hsame
      simp only [visited, hd, bind, Except.bind, pure, Except.pure,
        if_neg (fun h => (hneg.mp h) htick)] at hv
      cases hrest : visited c t ids with
      | error e => simp [hrest] at hv
      | ok w =>
        simp only [hrest, Except.ok.injEq] at hv
        subst hv
        have hlater := ih hrest (fun x hx => hle x (by simp [hx])) (List.pairwise_cons.mp hsorted).2
        rw [lookedAt, below_cons_of_le htick, List.length_cons, List.take_succ_cons]
        exact List.forall_mem_cons.mpr ⟨hsame, hlater⟩
    · rw [lookedAt, below_cons_of_lt hsorted htick, List.length_nil, List.take_succ_cons,
        List.take_zero]
      refine List.forall_mem_cons.mpr ⟨by_contra fun hother => ?_, by simp⟩
      simp only [visited] at hv
      cases hd : difference t (c.tick id) with
      | error e => simp [hd, bind, Except.bind] at hv
      | ok d =>
        have hneg := difference_other hother hd
        simp only [hd, bind, Except.bind, pure, Except.pure,
          if_neg (fun h => htick (hneg.mp h))] at hv
        cases hrest : visited c t ids with
        | error e => simp [hrest] at hv
        | ok w =>
          simp only [hrest, Except.ok.injEq] at hv
          exact htick (hle id (by simp [← hv]))

theorem sameHalf_of_visited (hsorted : ids.Pairwise fun x y => c.tick x ≤ c.tick y)
    (h : visited c t ids = .ok (upToStop c func s (below c t ids))) :
    ∀ id ∈ lookedAt c t ids, SameHalf t (c.tick id) := by
  by_cases hlow : t.toNat < 2 ^ 63
  · refine sameHalf_of_low hlow h (fun x hx => ?_) hsorted
    simpa using (List.mem_filter.mp (mem_of_upToStop hx)).2
  · -- From 2^63 on the first item decides: one of the lower half ends the loop at once.
    cases ids with
    | nil => simp [lookedAt]
    | cons id ids =>
      have hfirst : ¬(c.tick id).toNat < 2 ^ 63 := by
        intro hid
        have hother : ¬SameHalf t (c.tick id) := fun h => hlow (h.mpr hid)
        have htick : c.tick id ≤ t := UInt64.le_iff_toNat_le.mpr (by omega)
        rw [below_cons_of_le htick, upToStop] at h
        simp only [visited] at h
        cases hd : difference t (c.tick id) with
        | error e => simp [hd, bind, Except.bind] at h
        | ok d =>
          have hneg := difference_other hother hd
          simp [hd, bind, Except.bind, pure, Except.pure, hneg.mpr htick] at h
      intro x hx
      have hmem := List.mem_of_mem_take hx
      refine ⟨fun h => absurd h hlow, fun h => absurd h ?_⟩
      rcases List.mem_cons.mp hmem with rfl | hmem
      · exact hfirst
      · have := UInt64.le_iff_toNat_le.mp ((List.pairwise_cons.mp hsorted).1 x hmem)
        omega

/-- In every cache that is reached the list holds the live items once each, linked both ways and in
the order of the ticks; the loop does to it what it is meant to exactly when the callback answers
`true` for no item below the tick but perhaps the last one, and no tick is compared with one from
the other half of the range. -/
theorem forEachItemBelow_iff [Inhabited Obj] {live : Finset ℕ} (h : Reached c live now) :
    ∃ ids, Ordered c ids now ∧ (∀ id, id ∈ ids ↔ id ∈ live) ∧
      ∀ (σ : Type) (t : UInt64) (func : σ → Obj → σ × Answer) (s : σ) (fuel : ℕ), live.card ≤ fuel →
        ((∃ s' c', forEachItemBelow fuel t func s c = .ok (upToStop c func s (below c t ids), s',
          c') ∧ Swept c now c') ↔
          StopsAtLast c func s (below c t ids) ∧ ∀ id ∈ lookedAt c t ids,
            SameHalf t (c.tick id)) := by
  obtain ⟨ids, hids, hlive⟩ := h.ordered
  refine ⟨ids, hids, hlive, fun σ t func s fuel hfuel => ?_⟩
  have hcard : ids.length ≤ fuel := by
    have heq : ids.toFinset = live := Finset.ext fun x => by simp [hlive]
    rwa [← List.toFinset_card_of_nodup hids.links.nodup, heq]
  have hspec := @forEach_spec Obj σ c [] ids now t func s fuel (by simpa using hids) hcard
  rw [← hids.links.first_eq] at hspec
  constructor
  · rintro ⟨s', c', hrun, -⟩
    have hvisited : visited c t ids = .ok (upToStop c func s (below c t ids)) := by
      unfold forEachItemBelow at hrun
      cases hv : visited c t ids with
      | error e => simp [hv, hrun] at hspec
      | ok v =>
        simp only [hv] at hspec
        obtain ⟨s₁, c₁, hrun₁, -⟩ := hspec
        rw [hrun] at hrun₁
        cases hrun₁
        rfl
    have hhalf := sameHalf_of_visited hids.sorted hvisited
    rw [visited_below hids.sorted hhalf, Except.ok.injEq] at hvisited
    exact ⟨upToStop_eq_self.mp hvisited.symm, hhalf⟩
  · rintro ⟨hstop, hhalf⟩
    rw [visited_below hids.sorted hhalf] at hspec
    obtain ⟨s', c', hrun, hswept⟩ := hspec
    rw [upToStop_eq_self.mpr hstop]
    exact ⟨s', c', hrun, hswept⟩

/-- Two images, used at the ticks 1 and 2. -/
def twoItems : LruCache ℕ := ((init.insert 7 1).1.insert 8 2).1

theorem twoItems_reached : Reached twoItems {1, 0} 2 :=
  .insert 8 (.insert 7 .init (by decide)) (by decide)

/-- A callback that answers `true` at once is applied to both. -/
theorem stop_ignored :
    ((forEachItemBelow 2 5 (fun n _ => (n + 1, ⟨true, false⟩)) 0 twoItems).toOption.map fun r =>
      (r.1, r.2.1)) = some ([0, 1], 2) ∧
      upToStop twoItems (fun (n : ℕ) _ => (n + 1, ⟨true, false⟩)) 0 (below twoItems 5 [0, 1]) =
        [0] := by
  constructor <;> decide

theorem forEachItemBelow_iff_sample :
    ∃ ids, Ordered twoItems ids 2 ∧ ∀ id, id ∈ ids ↔ id ∈ ({1, 0} : Finset ℕ) :=
  let ⟨ids, hids, hlive, _⟩ := forEachItemBelow_iff twoItems_reached
  ⟨ids, hids, hlive⟩

end PS4Droid.Common.LruCache
