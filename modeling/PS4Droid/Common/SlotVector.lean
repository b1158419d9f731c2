import Mathlib.Algebra.Ring.Nat
import Mathlib.Data.List.Nodup
import Mathlib.Data.List.Perm.Basic

/-!
# The slot vector

`SlotVector`: an array of values, a bit for each slot that holds one, and the list of the other
slots. The array grows when the list is empty. Indices are `u32`; the capacity is not.
-/

namespace PS4Droid.Common

def initialCapacity : ℕ := 2048

/-- A slot without a living object holds `none`; the back of `free_list` is the head of
`freeList`. -/
structure SlotVector (T : Type) where
  values : ℕ → Option T
  valuesCapacity : ℕ
  storedBitset : List (BitVec 64)
  freeList : List ℕ

namespace SlotVector

variable {T : Type}

def setStorageBit (v : SlotVector T) (index : ℕ) : SlotVector T :=
  { v with storedBitset := v.storedBitset.modify (index / 64) (· ||| 1#64 <<< (index % 64)) }

def resetStorageBit (v : SlotVector T) (index : ℕ) : SlotVector T :=
  { v with storedBitset := v.storedBitset.modify (index / 64) (· &&& ~~~(1#64 <<< (index % 64))) }

/-- Reading behind the end of the bit set is undefined. -/
def readStorageBit (v : SlotVector T) (index : ℕ) : Option Bool :=
  v.storedBitset[index / 64]?.map fun (bits : BitVec 64) => (bits >>> (index % 64)) &&& 1#64 != 0

/-- `Reserve`: the values whose bit is set move, and `iota` fills the back of the list from the
end. -/
def reserve (v : SlotVector T) (newCapacity : ℕ) : SlotVector T :=
  { values := fun i => if v.readStorageBit i = some true then v.values i else none
    valuesCapacity := newCapacity
    storedBitset :=
      v.storedBitset ++ List.replicate ((newCapacity + 63) / 64 - v.storedBitset.length) 0
    freeList := (List.range (newCapacity - v.valuesCapacity)).map
      (fun j => (v.valuesCapacity + j) % 2 ^ 32) ++ v.freeList }

def init : SlotVector T :=
  ({ values := fun _ => none, valuesCapacity := 0, storedBitset := [], freeList := [] } :
    SlotVector T).reserve
    initialCapacity

def freeValueIndex (v : SlotVector T) : SlotVector T × ℕ :=
  let v := if v.freeList.isEmpty then v.reserve (if v.valuesCapacity ≠ 0 then v.valuesCapacity * 2
    else 1) else v
  ({ v with freeList := v.freeList.tail }, v.freeList.headD 0)

def insert (v : SlotVector T) (value : T) : SlotVector T × ℕ :=
  let (v, index) := v.freeValueIndex
  ({ v with values := Function.update v.values index (some value) }.setStorageBit index, index)

def erase (v : SlotVector T) (id : ℕ) : SlotVector T :=
  { v with values := Function.update v.values id none, freeList :=
    id :: v.freeList }.resetStorageBit id

def isAllocated (v : SlotVector T) (id : ℕ) : Option Bool := v.readStorageBit id

def size (v : SlotVector T) : ℕ := v.valuesCapacity - v.freeList.length

/-- The capacity as the index that `end` makes of it. -/
def endIndex (v : SlotVector T) : ℕ := v.valuesCapacity % 2 ^ 32

def advanceToValid (v : SlotVector T) (slot : ℕ) : ℕ :=
  if slot < v.endIndex ∧ v.readStorageBit slot = some false then advanceToValid v (slot + 1)
    else slot
termination_by v.endIndex - slot

/-- The slots that an iterator visits from `slot` to the end; `none` when it is not there after
`fuel` steps. -/
def iterateFrom (v : SlotVector T) : ℕ → ℕ → Option (List ℕ)
  | fuel, slot =>
    if slot = v.endIndex then some []
    else
      match fuel with
      | 0 => none
      | fuel + 1 => (slot :: ·) <$> iterateFrom v fuel (v.advanceToValid (slot + 1))

def iterate (v : SlotVector T) (fuel : ℕ) : Option (List ℕ) :=
  v.iterateFrom fuel (v.advanceToValid 0)

/-- The vector can take another value, and its capacity stays a `u32`. -/
def CanInsert (v : SlotVector T) : Prop := v.freeList ≠ [] ∨ v.valuesCapacity < 2 ^ 31

/-- A vector after some insertions and erasures, with the values that are stored. -/
inductive Reached : SlotVector T → (ℕ → Option T) → Prop
  | init : Reached init fun _ => none
  | insert {v contents} (value : T) (h : Reached v contents) (hroom : v.CanInsert) :
      Reached (v.insert value).1 (Function.update contents (v.insert value).2 (some value))
  | erase {v contents id} (h : Reached v contents) (hid : contents id ≠ none) :
      Reached (v.erase id) (Function.update contents id none)

/-! ### Bits -/

/-- The bit of a slot; there are none behind the end. -/
def bit (v : SlotVector T) (i : ℕ) : Bool := (v.storedBitset.getD (i / 64) 0).getLsbD (i % 64)

section Bits

variable {v : SlotVector T} {i j : ℕ}

theorem and_one_ne_zero (w : BitVec 64) (k : ℕ) : (w >>> k &&& 1#64 != 0) = w.getLsbD k := by
  rw [BitVec.and_one_eq_setWidth_ofBool_getLsbD, BitVec.getLsbD_ushiftRight, Nat.add_zero]
  cases w.getLsbD k <;> rfl

theorem readStorageBit_eq (h : i / 64 < v.storedBitset.length) :
    v.readStorageBit i = some (v.bit i) := by
  simp only [readStorageBit, bit, List.getD_eq_getElem?_getD, List.getElem?_eq_getElem h,
    Option.map_some, Option.getD_some, and_one_ne_zero]

theorem bit_eq_true_iff : v.readStorageBit i = some true ↔ v.bit i = true := by
  by_cases h : i / 64 < v.storedBitset.length
  · rw [readStorageBit_eq h, Option.some.injEq]
  · simp [readStorageBit, bit, List.getElem?_eq_none (Nat.le_of_not_lt h)]

theorem lt_of_bit (h : v.bit i = true) : i / 64 < v.storedBitset.length := by
  by_contra hlt
  simp [bit, List.getElem?_eq_none (Nat.le_of_not_lt hlt)] at h

theorem decide_index : decide (j = i) = (decide (i / 64 = j / 64) && decide (i % 64 = j % 64)) := by
  rw [← Bool.decide_and]
  exact decide_eq_decide.mpr ⟨by omega, by omega⟩

theorem getLsbD_mask : (1#64 <<< (i % 64)).getLsbD j = decide (i % 64 = j) := by
  rw [← BitVec.twoPow_eq, BitVec.getLsbD_twoPow, decide_eq_true (Nat.mod_lt i (by decide)),
    Bool.true_and]

theorem bit_modify {f : BitVec 64 → BitVec 64} (h : i / 64 < v.storedBitset.length) :
    ({ v with storedBitset := v.storedBitset.modify (i / 64) f } : SlotVector T).bit j =
      if i / 64 = j / 64 then (f (v.storedBitset.getD (j / 64) 0)).getLsbD (j % 64)
        else v.bit j := by
  simp only [bit, List.getD_eq_getElem?_getD, List.getElem?_modify]
  split_ifs with heq
  · rw [← heq, List.getElem?_eq_getElem h]
    rfl
  · simp

theorem bit_setStorageBit (h : i / 64 < v.storedBitset.length) (j : ℕ) :
    (v.setStorageBit i).bit j = (v.bit j || decide (j = i)) := by
  rw [setStorageBit, bit_modify h, decide_index]
  split_ifs with heq
  · rw [BitVec.getLsbD_or, getLsbD_mask, decide_eq_true heq, Bool.true_and]
    rfl
  · rw [decide_eq_false heq, Bool.false_and, Bool.or_false]

theorem bit_resetStorageBit (h : i / 64 < v.storedBitset.length) (j : ℕ) :
    (v.resetStorageBit i).bit j = (v.bit j && !decide (j = i)) := by
  rw [resetStorageBit, bit_modify h, decide_index]
  split_ifs with heq
  · have hj : j % 64 < 64 := Nat.mod_lt j (by decide)
    rw [BitVec.getLsbD_and, BitVec.getLsbD_not, getLsbD_mask, decide_eq_true heq, decide_eq_true hj,
      Bool.true_and, Bool.true_and]
    rfl
  · rw [decide_eq_false heq, Bool.false_and, Bool.not_false, Bool.and_true]

end Bits

/-! ### What every vector keeps -/

structure Good (v : SlotVector T) (contents : ℕ → Option T) : Prop where
  cap : ∃ k, 11 ≤ k ∧ k ≤ 31 ∧ v.valuesCapacity = 2 ^ k
  words : v.storedBitset.length * 64 = v.valuesCapacity
  nodup : v.freeList.Nodup
  free : ∀ i, i ∈ v.freeList ↔ i < v.valuesCapacity ∧ v.bit i = false
  stored : ∀ i, contents i = if v.bit i then v.values i else none
  alive : ∀ i, v.bit i = true → v.values i ≠ none

variable {v : SlotVector T} {contents : ℕ → Option T} {id : ℕ} {value : T}

theorem Good.word_lt (h : Good v contents) {i : ℕ} : i / 64 < v.storedBitset.length ↔
    i < v.valuesCapacity := by
  have := h.words
  omega

theorem Good.contents_ne (h : Good v contents) (i : ℕ) : contents i ≠ none ↔ v.bit i = true := by
  rw [h.stored]
  split_ifs with hbit
  · simpa [hbit] using h.alive i hbit
  · simp [hbit]

theorem Good.capacity_lt (h : Good v contents) : v.valuesCapacity < 2 ^ 32 := by
  obtain ⟨k, -, hk, hcap⟩ := h.cap
  rw [hcap]
  exact Nat.pow_lt_pow_right (by decide) (by omega)

/-- Growing an exhausted vector frees the new slots. -/
theorem Good.reserve (h : Good v contents) (hfree : v.freeList = [])
    (hcap : v.valuesCapacity < 2 ^ 31) :
    Good (v.reserve (v.valuesCapacity * 2)) contents ∧
      (v.reserve (v.valuesCapacity * 2)).freeList ≠ [] := by
  obtain ⟨k, hk, hk', heq⟩ := h.cap
  have hwords := h.words
  have hpos : 0 < v.valuesCapacity := heq ▸ Nat.two_pow_pos k
  have hbit : ∀ i, (v.reserve (v.valuesCapacity * 2)).bit i = v.bit i := by
    intro i
    simp only [bit, SlotVector.reserve, List.getD_eq_getElem?_getD]
    by_cases hi : i / 64 < v.storedBitset.length
    · rw [List.getElem?_append_left hi]
    · rw [List.getElem?_append_right (by omega),
        List.getElem?_eq_none (l := v.storedBitset) (by omega), List.getElem?_replicate]
      split_ifs <;> rfl
  have hlist : (v.reserve (v.valuesCapacity * 2)).freeList =
      (List.range v.valuesCapacity).map fun j => v.valuesCapacity + j := by
    simp only [SlotVector.reserve, hfree, List.append_nil, Nat.mul_two, Nat.add_sub_cancel]
    refine List.map_congr_left fun j hj => Nat.mod_eq_of_lt ?_
    have := List.mem_range.mp hj
    omega
  refine ⟨⟨⟨k + 1, by omega, ?_, ?_⟩, ?_, ?_, ?_, ?_, ?_⟩, ?_⟩
  · have : 2 ^ k < 2 ^ 31 := heq ▸ hcap
    have := (Nat.pow_lt_pow_iff_right (by decide : 1 < 2)).mp this
    omega
  · change v.valuesCapacity * 2 = 2 ^ (k + 1)
    rw [heq, Nat.pow_succ]
  · simp only [SlotVector.reserve, List.length_append, List.length_replicate]
    omega
  · rw [hlist]
    exact List.nodup_range.map fun a b hab => by omega
  · intro i
    rw [hlist, hbit, List.mem_map]
    constructor
    · rintro ⟨j, hj, rfl⟩
      refine ⟨?_, ?_⟩
      · have := List.mem_range.mp hj
        change _ < v.valuesCapacity * 2
        omega
      · by_contra hset
        have := h.word_lt.mp (lt_of_bit (by simpa using hset))
        omega
    · rintro ⟨hlt, hclear⟩
      change i < v.valuesCapacity * 2 at hlt
      have hge : ¬i < v.valuesCapacity :=
        fun hi => by simpa [hfree] using (h.free i).mpr ⟨hi, hclear⟩
      exact ⟨i - v.valuesCapacity, List.mem_range.mpr (by omega), by omega⟩
  · intro i
    rw [hbit, h.stored]
    split_ifs with hset
    · simp [SlotVector.reserve, bit_eq_true_iff, hset]
    · rfl
  · intro i hset
    rw [hbit] at hset
    simpa [SlotVector.reserve, bit_eq_true_iff, hset] using h.alive i hset
  · rw [hlist]
    simp [Nat.ne_of_gt hpos]

/-- The slot that an insertion takes: it was free, and the rest of the list stays. -/
theorem Good.freeValueIndex (h : Good v contents) (hroom : v.CanInsert) :
    ∃ w i rest, Good w contents ∧ w.freeList = i :: rest ∧
      v.freeValueIndex = ({ w with freeList := rest }, i) := by
  have hmain : ∃ w, Good w contents ∧ w.freeList ≠ [] ∧
      (if v.freeList.isEmpty then v.reserve (if v.valuesCapacity ≠ 0 then v.valuesCapacity * 2
        else 1) else v) = w := by
    by_cases hfree : v.freeList = []
    · have hcap := hroom.resolve_left (not_not.mpr hfree)
      have hpos : v.valuesCapacity ≠ 0 := by
        obtain ⟨k, -, -, heq⟩ := h.cap
        rw [heq]
        exact Nat.ne_of_gt (Nat.two_pow_pos k)
      obtain ⟨hgood, hne⟩ := h.reserve hfree hcap
      exact ⟨_, hgood, hne, by rw [if_pos (by simp [hfree]), if_pos hpos]⟩
    · exact ⟨v, h, hfree, if_neg (by simpa using hfree)⟩
  obtain ⟨w, hw, hne, hif⟩ := hmain
  obtain ⟨i, rest, hlist⟩ := List.exists_cons_of_ne_nil hne
  refine ⟨w, i, rest, hw, hlist, ?_⟩
  unfold SlotVector.freeValueIndex
  rw [hif]
  simp [hlist]

theorem Good.insert (h : Good v contents) (hroom : v.CanInsert) :
    Good (v.insert value).1 (Function.update contents (v.insert value).2 (some value)) ∧
      contents (v.insert value).2 = none := by
  obtain ⟨w, i, rest, hw, hlist, hindex⟩ := h.freeValueIndex hroom
  have hi := (hw.free i).mp (by simp [hlist])
  have hword := hw.word_lt.mpr hi.1
  have hnone : contents i = none := by
    by_contra hne
    rw [(hw.contents_ne i).mp hne] at hi
    cases hi.2
  simp only [SlotVector.insert, hindex]
  refine ⟨?_, hnone⟩
  have hbit : ∀ j,
    (setStorageBit { w with freeList := rest, values := Function.update w.values i (some value) }
    i).bit j = (w.bit j || decide (j = i)) := fun j => bit_setStorageBit hword j
  have hnodup := hlist ▸ hw.nodup
  refine ⟨hw.cap, ?_, (List.nodup_cons.mp hnodup).2, ?_, ?_, ?_⟩
  · change (w.storedBitset.modify _ _).length * 64 = w.valuesCapacity
    rw [List.length_modify]
    exact hw.words
  · intro j
    have hj := hw.free j
    rw [hlist, List.mem_cons] at hj
    rw [hbit]
    change j ∈ rest ↔ j < w.valuesCapacity ∧ _
    by_cases heq : j = i
    · subst heq
      simpa using (List.nodup_cons.mp hnodup).1
    · simpa [heq] using hj
  · intro j
    rw [hbit]
    change _ = if _ then Function.update w.values i (some value) j else none
    by_cases heq : j = i
    · subst heq
      simp
    · simp [heq, hw.stored]
  · intro j hset
    rw [hbit] at hset
    change Function.update w.values i (some value) j ≠ none
    by_cases heq : j = i
    · subst heq
      simp
    · rw [Function.update_of_ne heq]
      exact hw.alive j (by simpa [heq] using hset)

theorem Good.erase (h : Good v contents) (hid : contents id ≠ none) :
    Good (v.erase id) (Function.update contents id none) := by
  have hset := (h.contents_ne id).mp hid
  have hword := lt_of_bit hset
  have hbit : ∀ j, (v.erase id).bit j = (v.bit j && !decide (j = id)) :=
    fun j => bit_resetStorageBit hword j
  refine ⟨h.cap, ?_, ?_, ?_, ?_, ?_⟩
  · change (v.storedBitset.modify _ _).length * 64 = v.valuesCapacity
    rw [List.length_modify]
    exact h.words
  · refine List.nodup_cons.mpr ⟨fun hmem => ?_, h.nodup⟩
    rw [((h.free id).mp hmem).2] at hset
    cases hset
  · intro j
    rw [hbit]
    change j ∈ id :: v.freeList ↔ j < v.valuesCapacity ∧ _
    rw [List.mem_cons, h.free]
    by_cases heq : j = id
    · subst heq
      simpa using h.word_lt.mp hword
    · simp [heq]
  · intro j
    rw [hbit]
    change _ = if _ then Function.update v.values id none j else none
    by_cases heq : j = id
    · subst heq
      simp
    · simp [heq, h.stored]
  · intro j hset'
    rw [hbit] at hset'
    change Function.update v.values id none j ≠ none
    by_cases heq : j = id
    · subst heq
      simp at hset'
    · rw [Function.update_of_ne heq]
      exact h.alive j (by simpa [heq] using hset')

theorem Reached.good (h : Reached v contents) : Good v contents := by
  induction h with
  | init =>
    have hbit : ∀ i, (SlotVector.init : SlotVector T).bit i = false := by
      intro i
      simp only [bit, SlotVector.init, reserve, List.getD_eq_getElem?_getD, List.nil_append,
        List.getElem?_replicate]
      split_ifs <;> simp
    have hlist : (SlotVector.init : SlotVector T).freeList = List.range 2048 := by
      simp only [SlotVector.init, reserve, initialCapacity, List.append_nil, Nat.zero_add,
        Nat.sub_zero]
      refine (List.map_congr_left fun j hj => Nat.mod_eq_of_lt ?_).trans (List.map_id' _)
      have := List.mem_range.mp hj
      omega
    refine ⟨⟨11, by decide, by decide, rfl⟩, by simp [SlotVector.init, reserve,
      initialCapacity], ?_, ?_, ?_, ?_⟩
    · rw [hlist]
      exact List.nodup_range
    · intro i
      rw [hlist, hbit, List.mem_range]
      exact (and_iff_left rfl).symm
    · intro i
      simp [hbit]
    · intro i hset
      rw [hbit] at hset
      cases hset
  | insert value _ hroom ih => exact (ih.insert hroom).1
  | erase _ hid ih => exact ih.erase hid

/-! ### Iteration and size -/

/-- The slots from `slot` on that hold a value. -/
def slotsFrom (v : SlotVector T) (slot n : ℕ) : List ℕ := (List.range' slot n).filter v.bit

theorem Good.endIndex (h : Good v contents) : v.endIndex = v.valuesCapacity :=
  Nat.mod_eq_of_lt h.capacity_lt

variable {slot : ℕ}

theorem Good.advance (h : Good v contents) :
    v.advanceToValid slot = if slot < v.valuesCapacity ∧ v.bit slot = false then
      v.advanceToValid (slot + 1) else slot := by
  rw [advanceToValid, h.endIndex]
  by_cases hlt : slot < v.valuesCapacity
  · simp only [readStorageBit_eq (h.word_lt.mpr hlt), Option.some.injEq]
  · rw [if_neg (fun hand => hlt hand.1), if_neg (fun hand => hlt hand.1)]

/-- From any slot the iterator visits the slots that hold a value, and ends. -/
theorem Good.iterateFrom (h : Good v contents) {n fuel : ℕ} (hn : slot + n = v.valuesCapacity)
    (hfuel : n ≤ fuel) :
    v.iterateFrom fuel (v.advanceToValid slot) = some (v.slotsFrom slot n) := by
  induction n generalizing slot fuel with
  | zero =>
    obtain rfl : slot = v.valuesCapacity := hn
    rw [h.advance, if_neg (fun hand => absurd hand.1 (Nat.lt_irrefl _))]
    cases fuel <;> exact if_pos h.endIndex.symm
  | succ n ih =>
    rw [h.advance, slotsFrom, List.range'_succ, List.filter_cons]
    cases hbit : v.bit slot with
    | false =>
      rw [if_pos ⟨by omega, rfl⟩]
      exact ih (by omega) (by omega)
    | true =>
      obtain ⟨fuel, rfl⟩ : ∃ f, fuel = f + 1 := ⟨fuel - 1, by omega⟩
      have hend := h.endIndex
      rw [if_neg (by simp), SlotVector.iterateFrom, if_neg (by omega), ih (by omega) (by omega)]
      rfl

theorem Good.size (h : Good v contents) : v.size = (v.slotsFrom 0 v.valuesCapacity).length := by
  have hperm : v.freeList.Perm ((List.range' 0 v.valuesCapacity).filter fun i => !v.bit i) := by
    refine (List.perm_ext_iff_of_nodup h.nodup ((List.nodup_range' ..).filter _)).mpr fun i => ?_
    rw [h.free, List.mem_filter, List.mem_range'_1]
    simp
  have hlength := List.length_eq_length_filter_add (l := List.range' 0 v.valuesCapacity) v.bit
  rw [List.length_range', ← hperm.length_eq] at hlength
  rw [SlotVector.size, slotsFrom]
  omega

/-- In every vector that is reached the free list has no duplicates and is the complement of the
bits, an insertion takes a slot that holds nothing and keeps the other values, `size` counts and
iteration visits the slots that hold a value in increasing order. The membership test is defined,
and then right, exactly for the ids below the capacity. -/
theorem slots_agree (h : Reached v contents) :
    (v.freeList.Nodup ∧
      ∀ i, i ∈ v.freeList ↔ i < v.valuesCapacity ∧ v.readStorageBit i ≠ some true) ∧
    (∀ value, v.CanInsert → contents (v.insert value).2 = none ∧ (v.insert value).2 < 2 ^ 32 ∧
      (v.insert value).1.values (v.insert value).2 = some value ∧
      ∀ i, contents i ≠ none → (v.insert value).1.values i = contents i) ∧
    (∀ fuel, v.valuesCapacity ≤ fuel → ∃ ids, v.iterate fuel = some ids ∧ ids.Pairwise (· < ·) ∧
      (∀ i, i ∈ ids ↔ contents i ≠ none) ∧ v.size = ids.length) ∧
    ∀ id < 2 ^ 32, v.isAllocated id = some (contents id).isSome ↔ id < v.valuesCapacity := by
  have hgood := h.good
  refine ⟨⟨hgood.nodup, fun i => ?_⟩, fun value hroom => ?_, fun fuel hfuel => ?_,
    fun id _ => ?_⟩
  · rw [hgood.free, Ne, bit_eq_true_iff, Bool.not_eq_true]
  · obtain ⟨hgood', hnone⟩ := @Good.insert T v contents value hgood hroom
    have hvalue : ∀ i, Function.update contents (v.insert value).2 (some value) i ≠ none →
        (v.insert value).1.values i = Function.update contents (v.insert value).2
          (some value) i := by
      intro i hne
      rw [hgood'.stored, if_pos ((hgood'.contents_ne i).mp hne)]
    have hself := hvalue (v.insert value).2 (by simp)
    rw [Function.update_self] at hself
    refine ⟨hnone, ?_, hself, fun i hne => ?_⟩
    · have hset := (hgood'.contents_ne (v.insert value).2).mp (by simp)
      exact Nat.lt_trans (hgood'.word_lt.mp (lt_of_bit hset)) hgood'.capacity_lt
    · have hother : i ≠ (v.insert value).2 := fun heq => hne (heq ▸ hnone)
      have := hvalue i (by rwa [Function.update_of_ne hother])
      rwa [Function.update_of_ne hother] at this
  · refine ⟨_, hgood.iterateFrom (Nat.zero_add _) hfuel, (List.pairwise_lt_range' ..).filter _,
      fun i => ?_, hgood.size⟩
    rw [slotsFrom, List.mem_filter, List.mem_range'_1, hgood.contents_ne]
    constructor
    · exact And.right
    · intro hset
      exact ⟨⟨Nat.zero_le _, by simpa using hgood.word_lt.mp (lt_of_bit hset)⟩, hset⟩
  · rw [← hgood.word_lt]
    constructor
    · intro hread
      by_contra hout
      simp [isAllocated, readStorageBit, List.getElem?_eq_none (Nat.le_of_not_lt hout)] at hread
    · intro hword
      rw [isAllocated, readStorageBit_eq hword, Option.some.injEq, Bool.eq_iff_iff,
        ← hgood.contents_ne, Option.isSome_iff_ne_none]

/-- A fresh vector has no bit for the id 4096. -/
theorem isAllocated_behind_end : (init : SlotVector Unit).isAllocated 4096 = none := by decide

/-- The slot of the first value is all that is visited. -/
theorem slots_agree_sample :
    let v := ((init : SlotVector Unit).insert ()).1
    ∃ ids, v.iterate v.valuesCapacity = some ids ∧
      (∀ i, i ∈ ids ↔ i = ((init : SlotVector Unit).insert ()).2) ∧ v.size = ids.length := by
  intro v
  obtain ⟨-, -, hiterate, -⟩ := slots_agree (.insert () .init (.inr (by decide)))
  obtain ⟨ids, hids, -, hmem, hsize⟩ := hiterate v.valuesCapacity le_rfl
  exact ⟨ids, hids, fun i => by rw [hmem, Function.update_apply]; simp, hsize⟩

end SlotVector

end PS4Droid.Common
