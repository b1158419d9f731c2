import PS4Droid.Foundations.LinkedNodes
import Mathlib.Algebra.Ring.Int.Defs
import Mathlib.Data.Finset.Basic

/-!
# The least recently used cache

`LeastRecentlyUsedCache`: a deque of items that are linked into a list in the order of their last
use. Freed items are taken out of the list and used again, the one freed first first.
-/

namespace PS4Droid.Common

open LinkedNodes

/-- A pointer to an item is its index; the deque does not move items. -/
structure Item (Obj : Type) where
  obj : Obj
  tick : UInt64
  next : Option ℕ
  prev : Option ℕ

structure LruCache (Obj : Type) where
  itemPool : ℕ → Item Obj
  poolSize : ℕ
  freeItems : List ℕ
  firstItem : Option ℕ
  lastItem : Option ℕ

namespace LruCache

variable {Obj : Type}

def init [Inhabited Obj] : LruCache Obj :=
  { itemPool := fun _ => ⟨default, 0, none, none⟩, poolSize := 0, freeItems := [], firstItem :=
    none, lastItem := none }

def next (c : LruCache Obj) (id : ℕ) : Option ℕ := (c.itemPool id).next

def prev (c : LruCache Obj) (id : ℕ) : Option ℕ := (c.itemPool id).prev

def tick (c : LruCache Obj) (id : ℕ) : UInt64 := (c.itemPool id).tick

def modify (c : LruCache Obj) (id : ℕ) (f : Item Obj → Item Obj) : LruCache Obj :=
  { c with itemPool := Function.update c.itemPool id (f (c.itemPool id)) }

def setNext (c : LruCache Obj) (id : ℕ) (v : Option ℕ) : LruCache Obj :=
  c.modify id ({ · with next := v })

def setPrev (c : LruCache Obj) (id : ℕ) (v : Option ℕ) : LruCache Obj :=
  c.modify id ({ · with prev := v })

/-- `Build`: a freed item, or a new one at the end of the deque. -/
def build (c : LruCache Obj) : LruCache Obj × ℕ :=
  match c.freeItems with
  | [] => (({ c with poolSize := c.poolSize + 1 }.setNext c.poolSize none).setPrev c.poolSize none,
      c.poolSize)
  | id :: rest => (({ c with freeItems := rest }.setNext id none).setPrev id none, id)

def setFirst (c : LruCache Obj) (v : Option ℕ) : LruCache Obj := { c with firstItem := v }

def setLast (c : LruCache Obj) (v : Option ℕ) : LruCache Obj := { c with lastItem := v }

/-- A write through a pointer that is checked first. -/
def setNext? (c : LruCache Obj) (item v : Option ℕ) : LruCache Obj :=
  match item with
  | some id => c.setNext id v
  | none => c

def setPrev? (c : LruCache Obj) (item v : Option ℕ) : LruCache Obj :=
  match item with
  | some id => c.setPrev id v
  | none => c

def attach (c : LruCache Obj) (id : ℕ) : LruCache Obj :=
  let c : LruCache Obj := if c.firstItem = none then c.setFirst (some id) else c
  match c.lastItem with
  | none => c.setLast (some id)
  | some last =>
      (((c.setPrev id (some last)).setNext last (some id)).setNext id none).setLast (some id)

/-- `Detach` links the two neighbours, then moves the ends of the list. -/
def bridge (c : LruCache Obj) (id : ℕ) : LruCache Obj :=
  let c := c.setNext? (c.prev id) (c.next id)
  c.setPrev? (c.next id) (c.prev id)

def leaveFirst (c : LruCache Obj) (id : ℕ) : LruCache Obj :=
  if c.firstItem = some id then
    let c := c.setFirst (c.next id)
    c.setPrev? c.firstItem none
  else c

def leaveLast (c : LruCache Obj) (id : ℕ) : LruCache Obj :=
  if c.lastItem = some id then
    let c := c.setLast (c.prev id)
    c.setNext? c.lastItem none
  else c

def detach (c : LruCache Obj) (id : ℕ) : LruCache Obj := ((c.bridge id).leaveFirst id).leaveLast id

def insert (c : LruCache Obj) (obj : Obj) (tick : UInt64) : LruCache Obj × ℕ :=
  let (c, newId) := c.build
  ((c.modify newId ({ · with obj, tick })).attach newId, newId)

def touch (c : LruCache Obj) (id : ℕ) (tick : UInt64) : LruCache Obj :=
  if tick ≤ c.tick id then c
  else
    let c : LruCache Obj := c.modify id ({ · with tick })
    if c.lastItem = some id then c else (c.detach id).attach id

def free (c : LruCache Obj) (id : ℕ) : LruCache Obj :=
  let c := ((c.detach id).setPrev id none).setNext id none
  { c with freeItems := c.freeItems ++ [id] }

inductive Fault
  | outOfFuel
  | undefinedBehaviour
  deriving DecidableEq

/-- `static_cast<s64>(tick) - static_cast<s64>(item)`; an overflow is undefined. -/
def difference (tick item : UInt64) : Except Fault ℤ :=
  let d := tick.toInt64.toInt - item.toInt64.toInt
  if -2 ^ 63 ≤ d ∧ d < 2 ^ 63 then .ok d else .error .undefinedBehaviour

/-- What the callback of an iteration answers, and whether it frees the item it is given. -/
structure Answer where
  stop : Bool
  frees : Bool

variable {σ : Type}

/-- The loop of `ForEachItemBelow`; the result starts with the items that `func` was applied to.
`RETURNS_BOOL` compares `std::invoke_result<Func, ObjectType>` itself with `bool` and not its
`type`, so the answer of `func` is not looked at. -/
def forEach (tick : UInt64) (func : σ → Obj → σ × Answer) :
    ℕ → Option ℕ → σ → LruCache Obj → Except Fault (List ℕ × σ × LruCache Obj)
  | _, none, s, c => .ok ([], s, c)
  | 0, some _, _, _ => .error .outOfFuel
  | fuel + 1, some id, s, c => do
    if (← difference tick (c.tick id)) < 0 then
      return ([], s, c)
    else
      let following := c.next id
      let (s, answer) := func s (c.itemPool id).obj
      let c := if answer.frees then c.free id else c
      let (ids, s, c) ← forEach tick func fuel following s c
      return (id :: ids, s, c)

def forEachItemBelow (fuel : ℕ) (tick : UInt64) (func : σ → Obj → σ × Answer) (s : σ)
    (c : LruCache Obj) :
    Except Fault (List ℕ × σ × LruCache Obj) :=
  forEach tick func fuel c.firstItem s c

/-- A cache after some calls, with the items that are live and the last tick; ticks do not decrease,
and only live items are touched and freed. -/
inductive Reached [Inhabited Obj] : LruCache Obj → Finset ℕ → UInt64 → Prop
  | init : Reached init ∅ 0
  | insert {c live now} (obj : Obj) {tick : UInt64} (h : Reached c live now) (ht : now ≤ tick) :
      Reached (c.insert obj tick).1 (Insert.insert (c.insert obj tick).2 live) tick
  | touch {c live now id} {tick : UInt64} (h : Reached c live now) (hid : id ∈ live)
      (ht : now ≤ tick) :
      Reached (c.touch id tick) live tick
  | free {c live now id} (h : Reached c live now)
      (hid : id ∈ live) : Reached (c.free id) (live.erase id) now

/-! ### Single writes -/

section Writes

variable (c : LruCache Obj) (id : ℕ) (p v : Option ℕ) (f : Item Obj → Item Obj)

/-- What linking leaves alone: objects, ticks and the items that are free. -/
structure Relinks (c c' : LruCache Obj) : Prop where
  obj_eq : ∀ id, (c'.itemPool id).obj = (c.itemPool id).obj
  tick_eq : c'.tick = c.tick
  pool_eq : c'.poolSize = c.poolSize
  free_eq : c'.freeItems = c.freeItems

theorem Relinks.refl : Relinks c c := ⟨fun _ => rfl, rfl, rfl, rfl⟩

theorem Relinks.trans {c c₁ c' : LruCache Obj} (h : Relinks c c₁) (h' : Relinks c₁ c') :
    Relinks c c' :=
  ⟨fun id => (h'.obj_eq id).trans (h.obj_eq id), h'.tick_eq.trans h.tick_eq,
    h'.pool_eq.trans h.pool_eq, h'.free_eq.trans h.free_eq⟩

variable {γ : Type}

/-- A write to a field keeps every function of an item that does not look at it. -/
theorem modify_keeps (g : Item Obj → γ) (hf : ∀ i, g (f i) = g i) :
    (fun x => g ((c.modify id f).itemPool x)) = fun x => g (c.itemPool x) := by
  funext x
  by_cases hx : x = id
  · subst hx
    simp [modify, hf]
  · simp [modify, hx]

theorem modify_sets (g : Item Obj → γ) {w : γ} (hf : ∀ i, g (f i) = w) :
    (fun x => g ((c.modify id f).itemPool x)) = Function.update
      (fun x => g (c.itemPool x)) id w := by
  funext x
  by_cases hx : x = id
  · subst hx
    simp [modify, hf]
  · simp [modify, hx]

@[simp] theorem next_setNext : (c.setNext id v).next = Function.update c.next id v :=
  modify_sets c id _ Item.next fun _ => rfl

@[simp] theorem prev_setPrev : (c.setPrev id v).prev = Function.update c.prev id v :=
  modify_sets c id _ Item.prev fun _ => rfl

@[simp] theorem prev_setNext : (c.setNext id v).prev = c.prev :=
  modify_keeps c id _ Item.prev fun _ => rfl

@[simp] theorem next_setPrev : (c.setPrev id v).next = c.next :=
  modify_keeps c id _ Item.next fun _ => rfl

theorem setNext_relinks : Relinks c (c.setNext id v) :=
  ⟨congrFun (modify_keeps c id _ Item.obj fun _ => rfl), modify_keeps c id _ Item.tick fun _ => rfl,
    rfl, rfl⟩

theorem setPrev_relinks : Relinks c (c.setPrev id v) :=
  ⟨congrFun (modify_keeps c id _ Item.obj fun _ => rfl), modify_keeps c id _ Item.tick fun _ => rfl,
    rfl, rfl⟩

@[simp] theorem next_setFirst : (c.setFirst v).next = c.next := rfl
@[simp] theorem prev_setFirst : (c.setFirst v).prev = c.prev := rfl
@[simp] theorem next_setLast : (c.setLast v).next = c.next := rfl
@[simp] theorem prev_setLast : (c.setLast v).prev = c.prev := rfl
@[simp] theorem firstItem_setFirst : (c.setFirst v).firstItem = v := rfl
@[simp] theorem lastItem_setFirst : (c.setFirst v).lastItem = c.lastItem := rfl
@[simp] theorem firstItem_setLast : (c.setLast v).firstItem = c.firstItem := rfl
@[simp] theorem lastItem_setLast : (c.setLast v).lastItem = v := rfl
@[simp] theorem firstItem_setNext : (c.setNext id v).firstItem = c.firstItem := rfl
@[simp] theorem lastItem_setNext : (c.setNext id v).lastItem = c.lastItem := rfl
@[simp] theorem firstItem_setPrev : (c.setPrev id v).firstItem = c.firstItem := rfl
@[simp] theorem lastItem_setPrev : (c.setPrev id v).lastItem = c.lastItem := rfl

@[simp] theorem next_setNext? : (c.setNext? p v).next = linkNext c.next p v := by
  cases p <;> simp [setNext?, linkNext]

@[simp] theorem prev_setNext? : (c.setNext? p v).prev = c.prev := by
  cases p <;> simp [setNext?]

@[simp] theorem prev_setPrev? : (c.setPrev? p v).prev = linkPrev c.prev p v := by
  cases p <;> simp [setPrev?, linkPrev]

@[simp] theorem next_setPrev? : (c.setPrev? p v).next = c.next := by
  cases p <;> simp [setPrev?]

@[simp] theorem firstItem_setNext? : (c.setNext? p v).firstItem = c.firstItem := by cases p <;> rfl
@[simp] theorem lastItem_setNext? : (c.setNext? p v).lastItem = c.lastItem := by cases p <;> rfl
@[simp] theorem firstItem_setPrev? : (c.setPrev? p v).firstItem = c.firstItem := by cases p <;> rfl
@[simp] theorem lastItem_setPrev? : (c.setPrev? p v).lastItem = c.lastItem := by cases p <;> rfl

theorem setNext?_relinks : Relinks c (c.setNext? p v) := by
  cases p with
  | none => exact .refl c
  | some id => exact setNext_relinks c id v

theorem setPrev?_relinks : Relinks c (c.setPrev? p v) := by
  cases p with
  | none => exact .refl c
  | some id => exact setPrev_relinks c id v

theorem setFirst_relinks : Relinks c (c.setFirst v) := ⟨fun _ => rfl, rfl, rfl, rfl⟩

theorem setLast_relinks : Relinks c (c.setLast v) := ⟨fun _ => rfl, rfl, rfl, rfl⟩

theorem detach_relinks : Relinks c (c.detach id) := by
  have hbridge : Relinks c (c.bridge id) := (setNext?_relinks ..).trans (setPrev?_relinks ..)
  have hfirst : Relinks (c.bridge id) ((c.bridge id).leaveFirst id) := by
    unfold leaveFirst
    split_ifs
    · exact (setFirst_relinks ..).trans (setPrev?_relinks ..)
    · exact .refl _
  have hlast : Relinks ((c.bridge id).leaveFirst id) (c.detach id) := by
    unfold detach leaveLast
    split_ifs
    · exact (setLast_relinks ..).trans (setNext?_relinks ..)
    · exact .refl _
  exact (hbridge.trans hfirst).trans hlast

theorem attach_relinks : Relinks c (c.attach id) := by
  have h₁ : Relinks c (if c.firstItem = none then c.setFirst (some id) else c) := by
    split_ifs
    · exact setFirst_relinks ..
    · exact .refl c
  unfold attach
  generalize (if c.firstItem = none then c.setFirst (some id) else c) = c₁ at h₁ ⊢
  dsimp only
  split
  · exact h₁.trans (setLast_relinks ..)
  · exact h₁.trans (((setPrev_relinks ..).trans (setNext_relinks ..)).trans
      ((setNext_relinks ..).trans (setLast_relinks ..)))

end Writes

/-! ### List surgery -/

section Surgery

variable {c : LruCache Obj} {id : ℕ} {ids l r : List ℕ}

abbrev Links (c : LruCache Obj) (ids : List ℕ) : Prop :=
  Linked c.next c.prev c.firstItem c.lastItem ids

theorem bridge_links (h : Links c (l ++ id :: r)) :
    (c.bridge id).next = linkNext c.next l.getLast? r.head? ∧
      (c.bridge id).prev = linkPrev c.prev r.head? l.getLast? ∧
      (c.bridge id).next id = r.head? ∧ (c.bridge id).prev id = l.getLast? := by
  obtain ⟨hprev, hnext⟩ := h.segment.node
  obtain ⟨-, hnr, hdisj⟩ := List.nodup_append.mp h.nodup
  have hl : l.getLast? ≠ some id := fun heq => hdisj id (List.mem_of_getLast? heq) id (by simp) rfl
  have hr : r.head? ≠ some id := fun heq => (List.nodup_cons.mp hnr).1 (List.mem_of_head? heq)
  simp [bridge, hprev, hnext, linkNext_of_ne hl, linkPrev_of_ne hr]

theorem leaveFirst_links (h : Links c (l ++ id :: r)) :
    ((c.bridge id).leaveFirst id).next = (c.bridge id).next ∧
      ((c.bridge id).leaveFirst id).prev = (c.bridge id).prev ∧
      ((c.bridge id).leaveFirst id).firstItem = (l ++ r).head? := by
  obtain ⟨-, hbp, hnext, -⟩ := bridge_links h
  have hfirst : (c.bridge id).firstItem = (l ++ id :: r).head? := by simp [bridge, h.first_eq]
  unfold leaveFirst
  cases l with
  | nil =>
    rw [if_pos (by simp [hfirst])]
    simp only [next_setPrev?, next_setFirst, firstItem_setFirst, prev_setPrev?, prev_setFirst,
      firstItem_setPrev?, hnext, List.nil_append, true_and, and_true]
    rw [hbp]
    exact linkPrev_idem ..
  | cons p l =>
    have hne : p ≠ id := (List.nodup_append.mp h.nodup).2.2 p (by simp) id (by simp)
    rw [if_neg (by simp [hfirst, hne])]
    exact ⟨rfl, rfl, by simp [hfirst]⟩

theorem detach_ends (h : Links c (l ++ id :: r)) :
    (c.detach id).next = (c.bridge id).next ∧ (c.detach id).prev = (c.bridge id).prev ∧
      (c.detach id).firstItem = (l ++ r).head? ∧ (c.detach id).lastItem = (l ++ r).getLast? := by
  obtain ⟨hbn, -, -, hprev⟩ := bridge_links h
  obtain ⟨hn, hp, hf⟩ := leaveFirst_links h
  have hlast : ((c.bridge id).leaveFirst id).lastItem = r.getLast?.or (some id) := by
    have hkeep : ((c.bridge id).leaveFirst id).lastItem = (c.bridge id).lastItem := by
      unfold leaveFirst
      split_ifs <;> simp
    have hbridge : (c.bridge id).lastItem = c.lastItem := by simp [bridge]
    rw [hkeep, hbridge, h.last_eq, List.getLast?_append, List.getLast?_cons]
    simp
  unfold detach leaveLast
  rw [List.getLast?_append]
  cases hr : r.getLast? with
  | none =>
    obtain rfl := List.getLast?_eq_none_iff.mp hr
    rw [if_pos (by simp [hlast])]
    simp only [next_setNext?, next_setLast, prev_setNext?, prev_setLast, lastItem_setLast,
      firstItem_setNext?,
      firstItem_setLast, lastItem_setNext?, hn, hp, hf, hprev, Option.none_or, and_true]
    rw [hbn]
    exact linkNext_idem ..
  | some n =>
    have hne : n ≠ id := by
      intro heq
      exact (List.nodup_cons.mp (List.nodup_append.mp h.nodup).2.1).1
        (List.mem_of_getLast? (heq ▸ hr))
    rw [hr] at hlast
    rw [if_neg (by simp [hlast, hne])]
    exact ⟨hn, hp, hf, hlast⟩

theorem detach_links (h : Links c (l ++ id :: r)) : Links (c.detach id) (l ++ r) := by
  obtain ⟨hbn, hbp, -, -⟩ := bridge_links h
  obtain ⟨hn, hp, hf, hl⟩ := detach_ends h
  rw [Links, hn, hp, hf, hl, hbn, hbp]
  exact h.unlink

theorem attach_links (h : Links c ids) (hid : id ∉ ids)
    (hnew : ids = [] → c.next id = none ∧ c.prev id = none) :
    Links (c.attach id) (ids ++ [id]) := by
  have hpush := h.push hid
  unfold attach
  cases hl : ids.getLast? with
  | none =>
    obtain rfl := List.getLast?_eq_none_iff.mp hl
    have hf : c.firstItem = none := h.first_eq
    have hlast : c.lastItem = none := h.last_eq
    rw [if_pos hf]
    simp only [lastItem_setFirst, hlast]
    exact ⟨by simp, rfl, rfl, (hnew rfl).2, (hnew rfl).1, trivial⟩
  | some last =>
    have hne : ids ≠ [] := fun heq => by simp [heq] at hl
    have hf : c.firstItem ≠ none := by
      rw [h.first_eq]
      exact fun heq => hne (List.head?_eq_none_iff.mp heq)
    have hlast : c.lastItem = some last := h.last_eq.trans hl
    rw [if_neg hf]
    simp only [hlast]
    have hhead : (ids ++ [id]).head? = c.firstItem := by
      rw [h.first_eq, List.head?_append_of_ne_nil _ hne]
    rw [hl, hhead] at hpush
    simpa [Links, linkNext] using hpush

end Surgery

/-! ### Every cache that is reached -/

/-- The list of a cache: linked, in the order of the ticks, and together with the freed items all of
the deque. -/
structure Ordered (c : LruCache Obj) (ids : List ℕ) (now : UInt64) : Prop where
  links : Links c ids
  sorted : ids.Pairwise fun x y => c.tick x ≤ c.tick y
  recent : ∀ id ∈ ids, c.tick id ≤ now
  pool : (ids ++ c.freeItems).Perm (List.range c.poolSize)

variable {c c' : LruCache Obj} {id : ℕ} {ids l r : List ℕ} {now t : UInt64} {obj : Obj}

theorem Ordered.free (h : Ordered c (l ++ id :: r) now) : Ordered (c.free id) (l ++ r) now := by
  have hdetach := detach_relinks c id
  have hlinks := detach_links h.links
  have hnot : id ∉ l ++ r := (List.nodup_middle.mp h.links.nodup |> List.nodup_cons.mp).1
  have htick : (c.free id).tick = c.tick :=
    ((hdetach.trans (setPrev_relinks _ id none)).trans (setNext_relinks _ id none)).tick_eq
  have hsub : (l ++ r).Sublist (l ++ id :: r) := by simp
  refine ⟨⟨hlinks.nodup, hlinks.first_eq, hlinks.last_eq, ?_⟩, ?_, ?_, ?_⟩
  · change Segment ((((c.detach id).setPrev id none).setNext id none).next) _ _ _ _
    rw [next_setNext, next_setPrev]
    change Segment _ ((((c.detach id).setPrev id none).setNext id none).prev) _ _ _
    rw [prev_setNext, prev_setPrev]
    exact (hlinks.segment.update_next hnot none).update_prev hnot none
  · rw [htick]
    exact h.sorted.sublist hsub
  · rw [htick]
    exact fun x hx => h.recent x (hsub.subset hx)
  · change (l ++ r ++ ((c.detach id).freeItems ++ [id])).Perm (List.range (c.detach id).poolSize)
    rw [hdetach.free_eq, hdetach.pool_eq]
    refine List.Perm.trans ?_ h.pool
    rw [← List.append_assoc]
    refine List.perm_append_singleton id _ |>.trans ?_
    simpa using (@List.perm_middle _ id l (r ++ c.freeItems)).symm

theorem Links.congr (h : Links c ids) (hfirst : c'.firstItem = c.firstItem)
    (hlast : c'.lastItem = c.lastItem)
    (hs : ∀ x ∈ ids, c'.itemPool x = c.itemPool x) : Links c' ids := by
  refine ⟨h.nodup, hfirst.trans h.first_eq, hlast.trans h.last_eq, h.segment.congr fun x hx => ?_⟩
  simp only [next, prev, hs x hx, and_self]

/-- Putting an item with the last tick at the end. -/
theorem Ordered.attach (h : Links c ids) (hid : id ∉ ids)
    (hnew : ids = [] → c.next id = none ∧ c.prev id = none)
    (hsorted : ids.Pairwise fun x y => c.tick x ≤ c.tick y)
    (hrecent : ∀ x ∈ ids, c.tick x ≤ c.tick id)
    (hpool : (ids ++ [id] ++ c.freeItems).Perm (List.range c.poolSize)) :
    Ordered (c.attach id) (ids ++ [id]) (c.tick id) := by
  have hrelinks := attach_relinks c id
  refine ⟨attach_links h hid hnew, ?_, ?_, ?_⟩
  · rw [hrelinks.tick_eq]
    exact List.pairwise_append.mpr ⟨hsorted, by simp, by simpa using hrecent⟩
  · rw [hrelinks.tick_eq]
    intro x hx
    rcases List.mem_append.mp hx with hx | hx
    · exact hrecent x hx
    · rw [List.mem_singleton.mp hx]
      exact UInt64.le_refl _
  · rw [hrelinks.free_eq, hrelinks.pool_eq]
    exact hpool

theorem Ordered.touch (h : Ordered c (l ++ id :: r) now) (ht : now ≤ t) :
    ∃ ids, Ordered (c.touch id t) ids t ∧ ids.Perm (l ++ id :: r) := by
  unfold LruCache.touch
  split_ifs with htick
  · exact ⟨_, ⟨h.links, h.sorted, fun x hx => UInt64.le_trans (h.recent x hx) ht, h.pool⟩, .refl _⟩
  · set c₁ : LruCache Obj := c.modify id ({ · with tick := t }) with hc₁
    have hnext : c₁.next = c.next := modify_keeps c id _ Item.next fun _ => rfl
    have hprev : c₁.prev = c.prev := modify_keeps c id _ Item.prev fun _ => rfl
    have hticks : c₁.tick = Function.update c.tick id t := modify_sets c id _ Item.tick fun _ => rfl
    have hlinks : Links c₁ (l ++ id :: r) := by
      refine ⟨h.links.nodup, h.links.first_eq, h.links.last_eq, ?_⟩
      rw [hnext, hprev]
      exact h.links.segment
    have hnot : id ∉ l ++ r := (List.nodup_middle.mp h.links.nodup |> List.nodup_cons.mp).1
    have hsame : ∀ x ∈ l ++ r, c₁.tick x = c.tick x := by
      intro x hx
      rw [hticks, Function.update_of_ne (ne_of_mem_of_not_mem hx hnot)]
    have hself : c₁.tick id = t := by rw [hticks, Function.update_self]
    have hsorted : (l ++ r).Pairwise fun x y => c₁.tick x ≤ c₁.tick y := by
      refine (h.sorted.sublist (by simp : (l ++ r).Sublist (l ++ id :: r))).imp_of_mem ?_
      intro x y hx hy hxy
      rw [hsame x hx, hsame y hy]
      exact hxy
    have hrecent : ∀ x ∈ l ++ r, c₁.tick x ≤ c₁.tick id := by
      intro x hx
      rw [hsame x hx, hself]
      exact UInt64.le_trans (h.recent x ((by simp : (l ++ r).Sublist (l ++ id :: r)).subset hx)) ht
    dsimp only
    split_ifs with hlast
    · -- The last item stays where it is.
      obtain rfl : r = [] := by
        rw [show c₁.lastItem = c.lastItem from rfl, h.links.last_eq, List.getLast?_append,
          List.getLast?_cons, Option.some_or, Option.some.injEq] at hlast
        cases hr : r.getLast? with
        | none => exact List.getLast?_eq_none_iff.mp hr
        | some n =>
          rw [hr] at hlast
          exact absurd (by simp [← (show n = id from hlast), List.mem_of_getLast? hr]) hnot
      rw [List.append_nil] at hsorted hrecent
      refine ⟨_, ⟨hlinks, ?_, ?_, h.pool⟩, .refl _⟩
      · exact List.pairwise_append.mpr ⟨hsorted, by simp, by simpa using hrecent⟩
      · intro x hx
        rcases List.mem_append.mp hx with hx | hx
        · exact hself ▸ hrecent x hx
        · rw [List.mem_singleton.mp hx, hself]
          exact UInt64.le_refl _
    · have hdetach := detach_relinks c₁ id
      have hne : l ++ r ≠ [] := by
        intro hnil
        obtain ⟨rfl, rfl⟩ := List.append_eq_nil_iff.mp hnil
        exact hlast h.links.last_eq
      have hperm : (l ++ r ++ [id]).Perm (l ++ id :: r) := by
        refine (List.perm_append_singleton id _).trans ?_
        exact List.perm_middle.symm
      have hordered :=
        Ordered.attach (c := c₁.detach id) (detach_links hlinks) hnot (fun h => absurd h hne)
        (by rw [hdetach.tick_eq]; exact hsorted) (by rw [hdetach.tick_eq]; exact hrecent)
        (by rw [hdetach.free_eq, hdetach.pool_eq]; exact (hperm.append_right _).trans h.pool)
      rw [hdetach.tick_eq, hself] at hordered
      exact ⟨_, hordered, hperm⟩

/-- A built item is not in the list, and has no links. -/
theorem build_spec (h : Ordered c ids now) :
    c.build.2 ∉ ids ∧ c.build.1.next c.build.2 = none ∧ c.build.1.prev c.build.2 = none ∧
      (∀ x ≠ c.build.2, c.build.1.itemPool x = c.itemPool x) ∧ c.build.1.firstItem = c.firstItem ∧
      c.build.1.lastItem = c.lastItem ∧
      (ids ++ [c.build.2] ++ c.build.1.freeItems).Perm (List.range c.build.1.poolSize) := by
  have hpool := h.pool
  unfold build
  split
  next hfree =>
    rw [hfree, List.append_nil] at hpool
    refine ⟨fun hmem => ?_, by simp, by simp, fun x hx => by simp [setPrev, setNext, modify, hx],
      rfl, rfl, ?_⟩
    · have := List.mem_range.mp (hpool.subset hmem)
      omega
    · change (ids ++ [c.poolSize] ++ c.freeItems).Perm (List.range (c.poolSize + 1))
      rw [hfree, List.append_nil, List.range_succ]
      exact hpool.append_right _
  next id rest hfree =>
    rw [hfree] at hpool
    have hnodup := hpool.nodup_iff.mpr List.nodup_range
    refine ⟨fun hmem =>
      (List.nodup_append.mp hnodup).2.2 id hmem id (by simp) rfl, by simp, by simp,
      fun x hx => by simp [setPrev, setNext, modify, hx], rfl, rfl, ?_⟩
    change (ids ++ [id] ++ rest).Perm (List.range c.poolSize)
    simpa using hpool

theorem Ordered.insert (h : Ordered c ids now) (ht : now ≤ t) :
    Ordered (c.insert obj t).1 (ids ++ [(c.insert obj t).2]) t := by
  obtain ⟨hnot, hnext, hprev, hsame, hfirst, hlast, hpool⟩ := build_spec h
  unfold LruCache.insert
  dsimp only
  generalize c.build.1 = c₁ at *
  generalize c.build.2 = id at *
  set c₂ : LruCache Obj := c₁.modify id ({ · with obj, tick := t }) with hc₂
  have hother : ∀ x ∈ ids, c₂.itemPool x = c.itemPool x := by
    intro x hx
    have hne := ne_of_mem_of_not_mem hx hnot
    rw [hc₂, modify, ← hsame x hne]
    exact Function.update_of_ne hne _ _
  have htick : ∀ x ∈ ids, c₂.tick x = c.tick x := fun x hx => congrArg Item.tick (hother x hx)
  have hself : c₂.tick id = t := by simp [tick, hc₂, modify]
  have hlinks : Links c₂ ids := h.links.congr hfirst hlast hother
  have hordered := Ordered.attach hlinks hnot
    (fun _ => ⟨by simpa [next, hc₂, modify] using hnext, by simpa [prev, hc₂, modify] using hprev⟩)
    (h.sorted.imp_of_mem fun hx hy hxy => by rw [htick _ hx, htick _ hy]; exact hxy)
    (fun x hx => by rw [htick x hx, hself]; exact UInt64.le_trans (h.recent x hx) ht) hpool
  rwa [hself] at hordered

/-- The list of a cache that is reached contains the live items. -/
theorem Reached.ordered [Inhabited Obj] {live : Finset ℕ} (h : Reached c live now) :
    ∃ ids, Ordered c ids now ∧ ∀ id, id ∈ ids ↔ id ∈ live := by
  induction h with
  | init =>
      exact ⟨[], ⟨⟨by simp, rfl, rfl, trivial⟩, by simp, by simp, by simp [LruCache.init]⟩, by simp⟩
  | insert obj _ ht ih =>
    obtain ⟨ids, hids, hlive⟩ := ih
    exact ⟨_, hids.insert ht, fun x => by simp [hlive, or_comm]⟩
  | touch _ hid ht ih =>
    obtain ⟨ids, hids, hlive⟩ := ih
    obtain ⟨l, r, rfl⟩ := List.append_of_mem ((hlive _).mpr hid)
    obtain ⟨ids', hids', hperm⟩ := hids.touch ht
    exact ⟨ids', hids', fun x => hperm.mem_iff.trans (hlive x)⟩
  | free _ hid ih =>
    obtain ⟨ids, hids, hlive⟩ := ih
    obtain ⟨l, r, rfl⟩ := List.append_of_mem ((hlive _).mpr hid)
    refine ⟨l ++ r, hids.free, fun x => ?_⟩
    have hnot := (List.nodup_middle.mp hids.links.nodup |> List.nodup_cons.mp).1
    rw [Finset.mem_erase, ← hlive]
    constructor
    · intro hx
      exact ⟨ne_of_mem_of_not_mem hx hnot, (by simp : (l ++ r).Sublist (l ++ _ :: r)).subset hx⟩
    · rintro ⟨hne, hx⟩
      simpa [hne] using hx

end LruCache

end PS4Droid.Common
