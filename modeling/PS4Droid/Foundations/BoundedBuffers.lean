import Mathlib.Data.List.TakeWhile
import PS4Droid.Foundations.ByteStrings

/-!
# Bounded buffers

Stores into a buffer of a fixed size, which are none outside of it; what a range of stores leaves
unchanged; and tables of strings that stand behind each other in a buffer.
-/

namespace BoundedBuffers

open ByteStrings

variable {α : Type*} {buffer buffer' buffer'' values : List α} {start stop i : ℕ}

/-- The values from a position on, where the buffer has room for them. -/
def store (buffer : List α) (start : ℕ) (values : List α) : Option (List α) :=
  if start + values.length ≤ buffer.length
  then some (buffer.take start ++ values ++ buffer.drop (start + values.length))
  else none

/-- Buffers of one size that differ in a range at most. -/
structure Within (start stop : ℕ) (buffer buffer' : List α) : Prop where
  length : buffer'.length = buffer.length
  outside : ∀ i, i < start ∨ stop ≤ i → buffer'[i]? = buffer[i]?

theorem Within.refl (start stop : ℕ) (buffer : List α) : Within start stop buffer buffer :=
  ⟨rfl, fun _ _ => rfl⟩

theorem Within.trans (h : Within start stop buffer buffer')
    (h' : Within start stop buffer' buffer'') :
    Within start stop buffer buffer'' :=
  ⟨h'.length.trans h.length, fun i hi => (h'.outside i hi).trans (h.outside i hi)⟩

theorem Within.mono {lo hi : ℕ} (h : Within start stop buffer buffer') (hlo : lo ≤ start)
    (hhi : stop ≤ hi) :
    Within lo hi buffer buffer' :=
  ⟨h.length, fun i hi => h.outside i (by omega)⟩

/-- Buffers with one part exchanged for another one of its size. -/
theorem within_exchange {old new : List α} (before tail : List α) (h : new.length = old.length) :
    Within before.length (before.length + old.length) (before ++ old ++ tail)
    (before ++ new ++ tail) := by
  constructor
  · simp only [List.length_append, h]
  · rintro i (hi | hi)
    · rw [List.append_assoc, List.append_assoc, List.getElem?_append_left hi,
        List.getElem?_append_left hi]
    · rw [List.getElem?_append_right (by rw [List.length_append]; omega),
        List.getElem?_append_right (by rw [List.length_append]; omega), List.length_append,
          List.length_append, h]

/-- A store with room for it changes its range only, where the values are then found. -/
theorem exists_store (hroom : start + values.length ≤ buffer.length) :
    ∃ buffer', store buffer start values = some buffer' ∧
      Within start (start + values.length) buffer buffer' ∧
      ∀ i < values.length, buffer'[start + i]? = values[i]? := by
  have htake : (buffer.take start).length = start := by
    rw [List.length_take]
    omega
  refine ⟨_, if_pos hroom, ⟨?_, ?_⟩, ?_⟩
  · simp only [List.length_append, htake, List.length_drop]
    omega
  · rintro i (hi | hi)
    · rw [List.append_assoc, List.getElem?_append_left (by omega), List.getElem?_take_of_lt hi]
    · rw [List.getElem?_append_right (by simp only [List.length_append, htake]; omega),
        List.getElem?_drop]
      simp only [List.length_append, htake]
      congr 1
      omega
  · intro i hi
    rw [List.append_assoc, List.getElem?_append_right (by omega), htake, Nat.add_sub_cancel_left,
      List.getElem?_append_left hi]

/-- A store of one value. -/
theorem exists_store_one {value : α} (hroom : start < buffer.length) :
    ∃ buffer', store buffer start [value] = some buffer' ∧ Within start (start + 1) buffer buffer' ∧
      buffer'[start]? = some value := by
  obtain ⟨buffer', hstore, hwithin, hvalues⟩ := @exists_store _ buffer [value] start hroom
  exact ⟨buffer', hstore, hwithin, hvalues 0 Nat.one_pos⟩

/-- A store at the start of a buffer. -/
theorem store_zero (hroom : values.length ≤ buffer.length) :
    store buffer 0 values = some (values ++ buffer.drop values.length) := by
  rw [store, if_pos (by omega), List.take_zero, List.nil_append, Nat.zero_add]

/-- A store into a part of a buffer. -/
theorem store_middle {before built old tail : List α} (hroom : values.length ≤ old.length) :
    store (before ++ (built ++ old) ++ tail) (before.length + built.length) values =
      some (before ++ (built ++ (values ++ old.drop values.length)) ++ tail) := by
  have hshape : before ++ (built ++ old) ++ tail = (before ++ built) ++ (old ++ tail) := by
    simp only [List.append_assoc]
  have hfront : before.length + built.length = (before ++ built).length := List.length_append.symm
  rw [hshape, hfront, store, if_pos (by simp only [List.length_append]; omega), List.take_left,
    ← List.drop_drop, List.drop_left, List.drop_append_of_le_length hroom]
  simp only [List.append_assoc]

/-- A store over as many values. -/
theorem store_over {before old tail : List α} (h : values.length = old.length) :
    store (before ++ old ++ tail) before.length values = some (before ++ values ++ tail) := by
  have hmiddle := @store_middle α values before [] old tail (Nat.le_of_eq h)
  rw [List.length_nil, Nat.add_zero, List.nil_append, h, List.drop_length, List.append_nil,
    List.nil_append] at hmiddle
  exact hmiddle

/-- Two stores behind each other are one. -/
theorem store_append (buffer : List α) (start : ℕ) (values more : List α) :
    ((store buffer start values).bind fun buffer => store buffer (start + values.length) more) =
      store buffer start (values ++ more) := by
  by_cases hroom : start + values.length ≤ buffer.length
  · have hfront : (buffer.take start ++ values).length = start + values.length := by
      rw [List.length_append, List.length_take, Nat.min_eq_left (by omega)]
    have hlength : (buffer.take start ++ values ++ buffer.drop (start + values.length)).length =
      buffer.length := by
      rw [List.length_append, hfront, List.length_drop]
      omega
    have hbehind : (buffer.take start ++ values ++ buffer.drop (start + values.length)).drop
        (start + values.length + more.length) = buffer.drop (start + (values ++ more).length) := by
      rw [← List.drop_drop, List.drop_left' hfront, List.drop_drop, List.length_append,
        Nat.add_assoc]
    rw [store, if_pos hroom, Option.bind_some, store, store, hlength, hbehind,
      List.take_left' hfront,
      List.length_append, ← Nat.add_assoc, List.append_assoc (buffer.take start)]
  · rw [store, if_neg hroom, Option.bind_none, store, if_neg]
    rw [List.length_append]
    omega

theorem store_cons (buffer : List α) (start : ℕ) (value : α) (more : List α) :
    store buffer start (value :: more) = (store buffer start [value]).bind fun buffer =>
      store buffer (start + 1) more :=
  (store_append buffer start [value] more).symm

/-! ### Tables of strings -/

variable {pool pool' text : List UInt8} {first second : List (ℕ × List UInt8)} {a b c : ℕ}

/-- Where a string stands, byte by byte. -/
theorem cString_eq_some : cString pool a = some text ↔
    0 ∉ text ∧ (∀ i < text.length, pool[a + i]? = text[i]?) ∧ pool[a + text.length]? = some 0 := by
  constructor
  · intro h
    rw [cString] at h
    split_ifs at h with hzero
    obtain rfl := Option.some.inj h
    have hsplit : (pool.drop a).takeWhile (· ≠ 0) ++ (pool.drop a).dropWhile (· ≠ 0) =
      pool.drop a :=
      List.takeWhile_append_dropWhile
    refine ⟨fun hmem => ?_, fun i hi => ?_, ?_⟩
    · have hne := List.mem_takeWhile_imp hmem
      simp at hne
    · rw [← List.getElem?_drop, ← hsplit, List.getElem?_append_left hi, hsplit]
    · rw [← List.getElem?_drop, ← hsplit, List.getElem?_append_right (by rw [hsplit]), hsplit,
        Nat.sub_self, ← List.head?_eq_getElem?]
      have hne : (pool.drop a).dropWhile (· ≠ 0) ≠ [] := fun hnil => by
        have hall := List.dropWhile_eq_nil_iff.mp hnil 0 hzero
        simp at hall
      rw [List.head?_eq_some_head hne]
      have hnot := List.head_dropWhile_not (fun c : UInt8 => decide (c ≠ 0)) hne
      simpa using hnot
  · rintro ⟨hnul, htext, hzero⟩
    have hlt : a + text.length < pool.length := (List.getElem?_eq_some_iff.mp hzero).1
    refine cString_of_slice hnul ?_
    rw [slice, if_pos (by omega)]
    congr 1
    apply List.ext_getElem?
    intro i
    rw [List.getElem?_take, List.getElem?_drop]
    split_ifs with hi
    · rcases Nat.lt_or_ge i text.length with hlt | hge
      · rw [htext i hlt, List.getElem?_append_left hlt]
      · obtain rfl : i = text.length := by omega
        rw [hzero, List.getElem?_append_right (Nat.le_refl _), Nat.sub_self]
        rfl
    · rw [List.getElem?_eq_none]
      rw [List.length_append, List.length_singleton]
      omega

/-- A string stays where nothing is changed. -/
theorem cString_within (h : cString pool a = some text) (hwithin : Within start stop pool pool')
    (houtside : a + text.length < start ∨ stop ≤ a) : cString pool' a = some text := by
  obtain ⟨hnul, htext, hzero⟩ := cString_eq_some.mp h
  refine cString_eq_some.mpr ⟨hnul, fun i hi => ?_, ?_⟩
  · rw [hwithin.outside (a + i) (by omega), htext i hi]
  · rw [hwithin.outside (a + text.length) (by omega), hzero]

/-- A store of a string with its terminator. -/
theorem exists_store_cString (hnul : 0 ∉ text) (hroom : start + (text.length + 1) ≤ pool.length) :
    ∃ pool', ((store pool start text).bind fun pool => store pool (start + text.length) [0]) =
      some pool' ∧
      Within start (start + (text.length + 1)) pool pool' ∧ cString pool' start = some text := by
  have hlength : (text ++ [0]).length = text.length + 1 := List.length_append
  obtain ⟨pool', hstore, hwithin, hvalues⟩ :=
    @exists_store _ pool (text ++ [0]) start (by rw [hlength]; exact hroom)
  rw [hlength] at hwithin hvalues
  refine ⟨pool', (store_append _ _ _ _).trans hstore, hwithin,
    cString_eq_some.mpr ⟨hnul, fun i hi => ?_, ?_⟩⟩
  · rw [hvalues i (by omega), List.getElem?_append_left hi]
  · rw [hvalues _ (Nat.lt_succ_self _), List.getElem?_append_right (Nat.le_refl _), Nat.sub_self]
    rfl

/-- Strings that stand behind each other, from a position to another one. -/
inductive StringTable (pool : List UInt8) : ℕ → List (ℕ × List UInt8) → ℕ → Prop
  | nil {a : ℕ} : StringTable pool a [] a
  | cons {a b c : ℕ} {text : List UInt8} {strings : List (ℕ × List UInt8)}
      (here : cString pool a = some text)
      (ends : a + text.length < b)
        (rest : StringTable pool b strings c) : StringTable pool a ((a, text) :: strings) c

theorem StringTable.single (here : cString pool a = some text) (ends : a + text.length < b) :
    StringTable pool a [(a, text)] b :=
  .cons here ends .nil

theorem StringTable.append (h : StringTable pool a first b) (h' : StringTable pool b second c) :
    StringTable pool a (first ++ second) c := by
  induction h with
  | nil => exact h'
  | cons here ends _ ih => exact .cons here ends (ih h')

theorem StringTable.le (h : StringTable pool a first b) : a ≤ b := by
  induction h with
  | nil => exact Nat.le_refl _
  | cons _ ends _ ih => omega

/-- Stores in front of a table or behind it leave it as it is. -/
theorem StringTable.frame (h : StringTable pool a first b) (hwithin : Within start stop pool pool')
    (houtside : b ≤ start ∨ stop ≤ a) : StringTable pool' a first b := by
  induction h with
  | nil => exact .nil
  | cons here ends rest ih =>
    have hle := rest.le
    exact .cons (cString_within here hwithin (by omega)) ends (ih (by omega))

/-- The strings end in front of the last position, and each in front of the next. -/
theorem StringTable.disjoint (h : StringTable pool a first b) :
    (∀ s ∈ first, a ≤ s.1 ∧ cString pool s.1 = some s.2 ∧ s.1 + s.2.length < b) ∧
      first.Pairwise fun s t => s.1 + s.2.length < t.1 := by
  induction h with
  | nil => exact ⟨nofun, .nil⟩
  | @cons a b c text strings here ends rest ih =>
    obtain ⟨hstrings, hpairwise⟩ := ih
    have hbc := rest.le
    refine ⟨fun s hs => ?_, List.pairwise_cons.mpr ⟨fun s hs => ?_, hpairwise⟩⟩
    · obtain rfl | hs := List.mem_cons.mp hs
      · exact ⟨Nat.le_refl _, here, Nat.lt_of_lt_of_le ends hbc⟩
      · obtain ⟨hge, hcString, hlt⟩ := hstrings s hs
        exact ⟨by omega, hcString, hlt⟩
    · exact Nat.lt_of_lt_of_le ends (hstrings s hs).1

end BoundedBuffers
