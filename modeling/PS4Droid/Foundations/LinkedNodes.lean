import Mathlib.Data.List.Nodup

/-!
# Doubly linked lists in a memory of nodes

Every node has a link forward and a link backward. `Segment` says that some nodes follow each other
in a given order, between a node in front and a node behind; lists are taken apart and put together
by segments.
-/

namespace LinkedNodes

variable {α : Type*}

/-- The nodes follow each other; `p` is in front of them and `q` behind. -/
def Segment (next prev : α → Option α) : Option α → List α → Option α → Prop
  | _, [], _ => True
  | p, x :: xs, q => prev x = p ∧ next x = xs.head?.or q ∧ Segment next prev (some x) xs q

/-- A whole list with its two ends. -/
structure Linked (next prev : α → Option α) (first last : Option α) (xs : List α) : Prop where
  nodup : xs.Nodup
  first_eq : first = xs.head?
  last_eq : last = xs.getLast?
  segment : Segment next prev none xs none

variable {next prev next' prev' : α → Option α} {p q p' q' : Option α} {xs l r : List α} {x : α}

theorem segment_append : Segment next prev p (l ++ r) q ↔
    Segment next prev p l (r.head?.or q) ∧ Segment next prev (l.getLast?.or p) r q := by
  induction l generalizing p with
  | nil => simp [Segment]
  | cons y l ih =>
    simp only [List.cons_append, Segment, ih, List.head?_append, Option.or_assoc,
      List.getLast?_cons, Option.or_some, Option.some_or, and_assoc]

theorem Segment.congr (h : Segment next prev p xs q)
    (hs : ∀ x ∈ xs, next' x = next x ∧ prev' x = prev x) :
    Segment next' prev' p xs q := by
  induction xs generalizing p with
  | nil => trivial
  | cons y xs ih =>
    obtain ⟨hprev, hnext, hrest⟩ := h
    obtain ⟨hn, hp⟩ := hs y (by simp)
    exact ⟨hp.trans hprev, hn.trans hnext, ih hrest fun x hx => hs x (by simp [hx])⟩

/-- The links of a node inside a list. -/
theorem Segment.node (h : Segment next prev none (l ++ x :: r) none) :
    prev x = l.getLast? ∧ next x = r.head? := by
  obtain ⟨hprev, hnext, -⟩ := (segment_append.mp h).2
  simpa using And.intro hprev hnext

variable [DecidableEq α]

theorem Segment.relink_next (h : Segment next prev p (l ++ [x]) q) (hx : x ∉ l) (q' : Option α) :
    Segment (Function.update next x q') prev p (l ++ [x]) q' := by
  obtain ⟨hl, hprev, -⟩ := segment_append.mp h
  refine segment_append.mpr ⟨hl.congr fun y hy => ⟨?_, rfl⟩, hprev, by simp, trivial⟩
  exact Function.update_of_ne (ne_of_mem_of_not_mem hy hx) _ _

theorem Segment.relink_prev (h : Segment next prev p (x :: r) q) (hx : x ∉ r) (p' : Option α) :
    Segment next (Function.update prev x p') p' (x :: r) q := by
  obtain ⟨-, hnext, hr⟩ := h
  refine ⟨by simp, hnext, hr.congr fun y hy => ⟨rfl, ?_⟩⟩
  exact Function.update_of_ne (ne_of_mem_of_not_mem hy hx) _ _

theorem Segment.update_next (h : Segment next prev p xs q) (hx : x ∉ xs) (v : Option α) :
    Segment (Function.update next x v) prev p xs q :=
  h.congr fun _ hy => ⟨Function.update_of_ne (ne_of_mem_of_not_mem hy hx) _ _, rfl⟩

theorem Segment.update_prev (h : Segment next prev p xs q) (hx : x ∉ xs) (v : Option α) :
    Segment next (Function.update prev x v) p xs q :=
  h.congr fun _ hy => ⟨rfl, Function.update_of_ne (ne_of_mem_of_not_mem hy hx) _ _⟩

/-- The forward link of the last node, if there is one. -/
def linkNext (next : α → Option α) (x? q : Option α) : α → Option α :=
  match x? with
  | some x => Function.update next x q
  | none => next

/-- The backward link of the first node, if there is one. -/
def linkPrev (prev : α → Option α) (x? p : Option α) : α → Option α :=
  match x? with
  | some x => Function.update prev x p
  | none => prev

variable {x? first last : Option α}

@[simp] theorem linkNext_idem (x? : Option α) (v w : Option α) :
    linkNext (linkNext next x? v) x? w = linkNext next x? w := by
  cases x? with
  | none => rfl
  | some x => exact Function.update_idem ..

@[simp] theorem linkPrev_idem (x? : Option α) (v w : Option α) :
    linkPrev (linkPrev prev x? v) x? w = linkPrev prev x? w := by
  cases x? with
  | none => rfl
  | some x => exact Function.update_idem ..

theorem linkNext_of_ne (h : x? ≠ some x) (v : Option α) : linkNext next x? v x = next x := by
  cases x? with
  | none => rfl
  | some y => exact Function.update_of_ne (fun heq => h (congrArg some heq.symm)) _ _

theorem linkPrev_of_ne (h : x? ≠ some x) (v : Option α) : linkPrev prev x? v x = prev x := by
  cases x? with
  | none => rfl
  | some y => exact Function.update_of_ne (fun heq => h (congrArg some heq.symm)) _ _

theorem Segment.linkNext (h : Segment next prev p l q) (hl : l.Nodup) (q' : Option α) :
    Segment (linkNext next l.getLast? q') prev p l q' := by
  rcases List.eq_nil_or_concat l with rfl | ⟨l, x, rfl⟩
  · trivial
  · rw [List.concat_eq_append] at h hl ⊢
    rw [List.getLast?_append, List.getLast?_singleton, Option.some_or]
    exact h.relink_next (by simpa using (List.nodup_append.mp hl).2.2 x · x (by simp)) q'

theorem Segment.linkPrev (h : Segment next prev p r q) (hr : r.Nodup) (p' : Option α) :
    Segment next (linkPrev prev r.head? p') p' r q := by
  cases r with
  | nil => trivial
  | cons x r => exact h.relink_prev (List.nodup_cons.mp hr).1 p'

/-- Taking a node out: its neighbours are linked with each other. -/
theorem Linked.unlink (h : Linked next prev first last (l ++ x :: r)) :
    Linked (LinkedNodes.linkNext next l.getLast? r.head?)
    (LinkedNodes.linkPrev prev r.head? l.getLast?) (l ++ r).head? (l ++ r).getLast? (l ++ r) := by
  have hnodup : (l ++ r).Nodup := h.nodup.sublist (by simp)
  obtain ⟨hl, -, -, hr⟩ := segment_append.mp h.segment
  obtain ⟨hln, hrn, hdisj⟩ := List.nodup_append.mp hnodup
  refine ⟨hnodup, rfl, rfl, segment_append.mpr ⟨?_, ?_⟩⟩
  · refine (hl.linkNext hln (r.head?.or none)).congr fun y hy => ⟨by rw [Option.or_none], ?_⟩
    cases r with
    | nil => rfl
    | cons z r => exact Function.update_of_ne (fun heq => hdisj y hy z (by simp) heq) _ _
  · refine (hr.linkPrev hrn (l.getLast?.or none)).congr fun y hy => ⟨?_, by rw [Option.or_none]⟩
    cases hlast : l.getLast? with
    | none => rfl
    | some z =>
      exact Function.update_of_ne (fun heq => hdisj z (List.mem_of_getLast? hlast) y hy heq.symm) _
        _

/-- Putting a node behind the last one. -/
theorem Linked.push (h : Linked next prev first last xs) (hx : x ∉ xs) :
    Linked (Function.update (LinkedNodes.linkNext next xs.getLast? (some x)) x none)
      (Function.update prev x xs.getLast?) (xs ++ [x]).head? (some x) (xs ++ [x]) := by
  refine ⟨?_, rfl, by simp, segment_append.mpr ⟨?_, by simp, by simp, trivial⟩⟩
  · exact List.nodup_append.mpr
      ⟨h.nodup, by simp, by simpa using fun y hy => ne_of_mem_of_not_mem hy hx⟩
  · exact ((h.segment.linkNext h.nodup (some x)).update_next hx none).update_prev hx _

end LinkedNodes
