import Mathlib.Data.UInt

/-!
# Byte strings

Numbers of a fixed width with their low byte first, and parts of a buffer: a range of bytes, and a
text up to its terminating zero. Both are none where the buffer ends before.
-/

namespace ByteStrings

/-- The low `n` bytes of a number. -/
def leBytes : ℕ → ℕ → List UInt8
  | 0, _ => []
  | n + 1, v => UInt8.ofNat v :: leBytes n (v / 256)

/-- The number that bytes are. -/
def leNat : List UInt8 → ℕ
  | [] => 0
  | b :: rest => b.toNat + 256 * leNat rest

/-- The `n` bytes from a position on. -/
def slice (buffer : List UInt8) (start n : ℕ) : Option (List UInt8) :=
  if start + n ≤ buffer.length then some ((buffer.drop start).take n) else none

/-- The text from a position on. -/
def cString (buffer : List UInt8) (start : ℕ) : Option (List UInt8) :=
  if 0 ∈ buffer.drop start then some ((buffer.drop start).takeWhile (· ≠ 0)) else none

variable {buffer bytes text before behind : List UInt8} {start n v : ℕ}

@[simp]
theorem length_leBytes (n v : ℕ) : (leBytes n v).length = n := by
  induction n generalizing v with
  | zero => rfl
  | succ n ih => rw [leBytes, List.length_cons, ih]

theorem leNat_leBytes (n v : ℕ) : leNat (leBytes n v) = v % 256 ^ n := by
  induction n generalizing v with
  | zero => rw [leBytes, leNat, Nat.pow_zero, Nat.mod_one]
  | succ n ih => rw [leBytes, leNat, ih, Nat.pow_succ', Nat.mod_mul, UInt8.toNat_ofNat']

theorem leNat_leBytes_of_lt (h : v < 256 ^ n) : leNat (leBytes n v) = v := by
  rw [leNat_leBytes, Nat.mod_eq_of_lt h]

/-- A range of a buffer is what stands between the bytes before and behind it. -/
theorem slice_eq_some : slice buffer start n = some bytes ↔
    ∃ before behind, buffer = before ++ bytes ++ behind ∧ before.length = start ∧
      bytes.length = n := by
  rw [slice]
  constructor
  · intro h
    split at h
    · next hle =>
      cases h
      refine ⟨buffer.take start, (buffer.drop start).drop n, ?_, ?_, ?_⟩
      · rw [List.append_assoc, List.take_append_drop, List.take_append_drop]
      · rw [List.length_take]
        omega
      · rw [List.length_take, List.length_drop]
        omega
    · cases h
  · rintro ⟨before, behind, rfl, rfl, rfl⟩
    rw [if_pos (by simp), List.append_assoc, List.drop_left, List.take_left]

/-- The bytes of a range that is in the buffer. -/
theorem take_drop_eq (before behind : List UInt8) (h : buffer = before ++ bytes ++ behind) :
    (buffer.drop before.length).take bytes.length = bytes := by
  rw [h, List.append_assoc, List.drop_left, List.take_left]

theorem slice_append (before bytes behind : List UInt8) :
    slice (before ++ bytes ++ behind) before.length bytes.length = some bytes :=
  slice_eq_some.mpr ⟨before, behind, rfl, rfl, rfl⟩

/-- A range stays where it is when bytes are added behind it. -/
theorem slice_append_right (h : slice buffer start n = some bytes) (behind : List UInt8) :
    slice (buffer ++ behind) start n = some bytes := by
  obtain ⟨before, rest, rfl, hstart, hn⟩ := slice_eq_some.mp h
  exact slice_eq_some.mpr ⟨before, rest ++ behind, List.append_assoc _ _ _, hstart, hn⟩

/-- Bytes in front move a range. -/
theorem slice_append_left (h : slice buffer start n = some bytes) (before : List UInt8) :
    slice (before ++ buffer) (before.length + start) n = some bytes := by
  obtain ⟨front, rest, rfl, rfl, hn⟩ := slice_eq_some.mp h
  refine slice_eq_some.mpr ⟨before ++ front, rest, ?_, List.length_append, hn⟩
  rw [List.append_assoc, List.append_assoc, List.append_assoc]

/-- A text without zeros is found from a range that ends with one. -/
theorem cString_of_slice (hzero : 0 ∉ text)
    (h : slice buffer start (text.length + 1) = some (text ++ [0])) :
    cString buffer start = some text := by
  obtain ⟨before, behind, rfl, rfl, -⟩ := slice_eq_some.mp h
  have hall : ∀ b ∈ text, decide (b ≠ 0) = true := fun b hb => decide_eq_true fun hnul =>
    hzero (hnul ▸ hb)
  rw [cString, List.append_assoc, List.drop_left, if_pos (by simp), List.append_assoc,
    List.takeWhile_append_of_pos hall]
  simp

/-- Records of one size. -/
theorem slice_flatMap {α : Type*} {f : α → List UInt8} {size : ℕ} (hsize : ∀ a, (f a).length = size)
    {items : List α}
    {i : ℕ} {a : α} (h : items[i]? = some a) :
    slice (items.flatMap f) (size * i) size = some (f a) := by
  induction items generalizing i with
  | nil => cases h
  | cons item rest ih =>
    cases i with
    | zero =>
      cases h
      exact slice_eq_some.mpr ⟨[], rest.flatMap f, rfl, by simp, hsize _⟩
    | succ i =>
      rw [List.getElem?_cons_succ] at h
      have hrest := slice_append_left (ih h) (f item)
      rw [hsize, Nat.add_comm, ← Nat.mul_succ] at hrest
      exact hrest

end ByteStrings
