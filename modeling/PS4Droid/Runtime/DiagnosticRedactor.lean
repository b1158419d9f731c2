import PS4Droid.Foundations.Budget
import PS4Droid.Runtime.Box64Environment

/-!
# Truncated diagnostic logs

`DiagnosticRedactor.redactStream`: the redacted lines go into a head and, once it is full, through a
queue of last lines. What redacts one line is a parameter. The text is the one that the reader
decodes, and sizes stay below the range of a `Long`.
-/

namespace PS4Droid.Runtime.Diagnostics

open Box64 (Units ascii lineFeed carriageReturn lineSequence)
open Budget

/-! ### UTF-8 -/

def isHighSurrogate (c : UInt16) : Bool := 0xd800 ≤ c ∧ c ≤ 0xdbff

def isLowSurrogate (c : UInt16) : Bool := 0xdc00 ≤ c ∧ c ≤ 0xdfff

/-- A unit of its own; a surrogate without the other one is replaced by `?`. -/
def utf8Unit (c : UInt16) : List UInt8 :=
  let n := c.toNat
  if n < 0x80 then [n.toUInt8]
  else if n < 0x800 then [(0xc0 + n / 64).toUInt8, (0x80 + n % 64).toUInt8]
  else if isHighSurrogate c || isLowSurrogate c then [63]
  else [(0xe0 + n / 4096).toUInt8, (0x80 + n / 64 % 64).toUInt8, (0x80 + n % 64).toUInt8]

def utf8Pair (high low : UInt16) : List UInt8 :=
  let n := 0x10000 + (high.toNat - 0xd800) * 0x400 + (low.toNat - 0xdc00)
  [(0xf0 + n / 262144).toUInt8, (0x80 + n / 4096 % 64).toUInt8, (0x80 + n / 64 % 64).toUInt8,
    (0x80 + n % 64).toUInt8]

def utf8 : Units → List UInt8
  | [] => []
  | [c] => utf8Unit c
  | c :: d :: rest =>
    if isHighSurrogate c ∧ isLowSurrogate d then utf8Pair c d ++ utf8 rest
      else utf8Unit c ++ utf8 (d :: rest)

/-- The bytes of a text. -/
def size (text : Units) : ℕ := (utf8 text).length

/-! ### The stream -/

/-- `BufferedReader.readLine`, up to the end: a terminator at the end starts no line. -/
def readLines (text : Units) : List Units :=
  let lines := lineSequence text
  if lines.getLast? = some [] then lines.dropLast else lines

structure StreamState where
  written : ℕ := 0
  truncated : Bool := false
  head : Units := []
  tail : List Units := []
  tailBytes : ℕ := 0
  pastHead : Bool := false

structure RedactStreamResult where
  bytesWritten : ℕ
  truncated : Bool

/-- The nearest number with 53 bits, to the even one of two. -/
def toDouble (n : ℕ) : ℕ :=
  if n < 2 ^ 53 then n
  else
    let unit := 2 ^ (n.log2 - 52)
    let down := n / unit
    if unit < 2 * (n % unit) ∨ unit = 2 * (n % unit) ∧ down % 2 = 1 then (down + 1) * unit
      else down * unit

/-- A quarter of the bytes. -/
def headBudget (maxBytes : ℕ) : ℕ := max (toDouble maxBytes / 4) 1

def tailBudget (maxBytes : ℕ) : ℕ := max (maxBytes - headBudget maxBytes) 1

def marker : Units := ascii "\n... [truncated for diagnostic size limits] ...\n\n"

section Model

variable (redactLine : Units → Units)

def redacted (line : Units) : Units := redactLine line ++ [lineFeed]

/-- The line goes into the head if it fits. -/
def appendHead (headBudget : ℕ) (state : StreamState) (line : Units) : StreamState × Bool :=
  let bytes := size (redacted redactLine line)
  if state.written + bytes > headBudget then ({ state with pastHead := true }, false)
  else ({ state with head := state.head ++ redacted redactLine line, written := state.written +
    bytes }, true)

/-- The loop that takes the first lines of the queue away: the queue, its bytes and `truncated`. -/
def removeFirst (tailBudget : ℕ) : List Units → ℕ → Bool → List Units × ℕ × Bool
  | [], tailBytes, truncated => ([], tailBytes, truncated)
  | removed :: tail, tailBytes, truncated =>
    if tailBytes > tailBudget then removeFirst tailBudget tail (tailBytes - size removed) true
    else (removed :: tail, tailBytes, truncated)

def pushTail (tailBudget : ℕ) (state : StreamState) (line : Units) : StreamState :=
  let bytes := size (redacted redactLine line)
  let (tail, tailBytes, truncated) :=
    removeFirst tailBudget (state.tail ++ [redacted redactLine line])
      (state.tailBytes + bytes) state.truncated
  { state with tail := tail, tailBytes := tailBytes, truncated := truncated }

/-- One pass of the loop over the lines. -/
def readStep (headBudget tailBudget : ℕ) (state : StreamState) (line : Units) : StreamState :=
  if ¬state.pastHead then
    match appendHead redactLine headBudget state line with
    | (state, true) => state
    | (state, false) => pushTail redactLine tailBudget { state with truncated := true } line
  else pushTail redactLine tailBudget state line

/-- The texts that are written, one after the other, and the result. -/
def redactStream (text : Units) (maxBytes : ℤ) : List Units × RedactStreamResult :=
  if maxBytes ≤ 0 then ([], ⟨0, true⟩)
  else
    let state :=
      (readLines text).foldl
      (readStep redactLine (headBudget maxBytes.toNat) (tailBudget maxBytes.toNat)) {}
    let markers := if state.truncated ∧ state.tail ≠ [] then [marker] else []
    (state.head :: (markers ++ state.tail),
      ⟨(markers ++ state.tail).foldl (fun written chunk => written + size chunk) state.written,
        state.truncated⟩)

end Model

/-! ### Sizes -/

theorem utf8_cons_cons (c d : UInt16) (rest : Units) : utf8 (c :: d :: rest) =
      if isHighSurrogate c ∧ isLowSurrogate d then utf8Pair c d ++ utf8 rest
        else utf8Unit c ++ utf8 (d :: rest) := rfl

theorem utf8_append_lineFeed (text rest : Units) :
    utf8 (text ++ lineFeed :: rest) = utf8 (text ++ [lineFeed]) ++ utf8 rest := by
  have hone : utf8 (lineFeed :: rest) = utf8 [lineFeed] ++ utf8 rest := by
    cases rest with
    | nil => rfl
    | cons d rest => exact if_neg fun h => absurd h.1 (by decide)
  induction text using utf8.induct with
  | case1 => exact hone
  | case2 c =>
    change (if isHighSurrogate c ∧ isLowSurrogate lineFeed then _
      else utf8Unit c ++ utf8 (lineFeed :: rest)) =
      (if isHighSurrogate c ∧ isLowSurrogate lineFeed then _ else utf8Unit c ++ utf8 [lineFeed]) ++
        _
    have hlow : ¬(isHighSurrogate c = true ∧ isLowSurrogate lineFeed = true) :=
      fun h => absurd h.2 (by decide)
    rw [if_neg hlow, if_neg hlow, hone, List.append_assoc]
  | case3 c d tail hpair ih =>
    simp only [List.cons_append, utf8_cons_cons, if_pos hpair, ih, List.append_assoc]
  | case4 c d tail hpair ih =>
    simp only [List.cons_append] at ih
    simp only [List.cons_append, utf8_cons_cons, if_neg hpair, ih, List.append_assoc]

theorem size_flatten {chunks : List Units}
    (h : ∀ chunk ∈ chunks, ∃ text, chunk = text ++ [lineFeed]) :
    size chunks.flatten = total size chunks := by
  induction chunks with
  | nil => rfl
  | cons chunk rest ih =>
    obtain ⟨⟨text, rfl⟩, hrest⟩ := List.forall_mem_cons.mp h
    rw [total_cons, ← ih hrest, List.flatten_cons, List.append_assoc, List.singleton_append, size,
      utf8_append_lineFeed, List.length_append, size, size]

theorem size_marker : size marker = 49 := by decide +kernel

theorem toDouble_le (n : ℕ) : toDouble n ≤ 2 * n := by
  rw [toDouble]
  split
  · omega
  · next hbig =>
    have hne : n ≠ 0 := by
      rintro rfl
      exact hbig (by decide)
    have hunit : 2 ^ (n.log2 - 52) ≤ n :=
      (Nat.pow_le_pow_right (by decide) (Nat.sub_le _ _)).trans (Nat.log2_self_le hne)
    have hdown := Nat.div_mul_le_self n (2 ^ (n.log2 - 52))
    dsimp only
    split
    · rw [Nat.add_mul, Nat.one_mul]
      omega
    · omega

theorem headBudget_le {maxBytes : ℕ} (h : 1 ≤ maxBytes) : headBudget maxBytes ≤ maxBytes := by
  have := toDouble_le maxBytes
  rw [headBudget]
  omega

/-! ### A run over the lines -/

section Run

variable {redactLine : Units → Units} {headBudget tailBudget : ℕ}

theorem removeFirst_eq (tailBudget : ℕ) (tail : List Units) :
    removeFirst tailBudget tail (total size tail) true =
      (back size tailBudget tail, total size (back size tailBudget tail), true) := by
  induction tail with
  | nil => rfl
  | cons removed tail ih =>
    rw [removeFirst, back]
    by_cases hover : total size (removed :: tail) > tailBudget
    · rw [if_pos hover, if_neg (Nat.not_le_of_gt hover), total_cons, Nat.add_sub_cancel_left, ih]
    · rw [if_neg hover, if_pos (Nat.le_of_not_gt hover)]

/-- The state after some lines, from the parts of their redaction that fit. -/
def stateOf (headBudget tailBudget : ℕ) (redactions : List Units) : StreamState where
  written := total size (front size headBudget redactions)
  truncated := total size redactions > headBudget
  head := (front size headBudget redactions).flatten
  tail := back size tailBudget (behind size headBudget redactions)
  tailBytes := total size (back size tailBudget (behind size headBudget redactions))
  pastHead := total size redactions > headBudget

theorem readStep_stateOf (redactions : List Units) (line : Units) :
    readStep redactLine headBudget tailBudget (stateOf headBudget tailBudget redactions) line =
      stateOf headBudget tailBudget (redactions ++ [redacted redactLine line]) := by
  have hpush : ∀ tail : List Units,
    removeFirst tailBudget (back size tailBudget tail ++ [redacted redactLine line])
      (total size (back size tailBudget tail) + size (redacted redactLine line)) true =
        (back size tailBudget (tail ++ [redacted redactLine line]),
          total size (back size tailBudget (tail ++ [redacted redactLine line])), true) := by
    intro tail
    have hqueue :=
      removeFirst_eq tailBudget (back size tailBudget tail ++ [redacted redactLine line])
    rwa [total_append, total_cons, total_nil, Nat.add_zero, back_back_concat] at hqueue
  rw [readStep]
  by_cases hover : total size redactions > headBudget
  · have hover' : ¬total size (redactions ++ [redacted redactLine line]) ≤ headBudget := by
      rw [total_append]
      omega
    rw [if_neg (by simp [stateOf, hover])]
    simp only [pushTail, stateOf, hover, decide_true, hpush]
    rw [front_concat hover', behind_concat (Nat.not_le_of_gt hover),
      decide_eq_true (Nat.lt_of_not_le hover')]
  · have hfit := Nat.le_of_not_gt hover
    have htotal : total size (redactions ++ [redacted redactLine line]) =
        total size redactions + size (redacted redactLine line) := by
      rw [total_append, total_cons, total_nil, Nat.add_zero]
    rw [if_pos (by simp [stateOf, hover])]
    have hwritten : (stateOf headBudget tailBudget redactions).written = total size redactions := by
      rw [stateOf, front_eq_self hfit]
    rw [appendHead, hwritten]
    by_cases hfull : total size redactions + size (redacted redactLine line) > headBudget
    · have hfull' : ¬total size (redactions ++ [redacted redactLine line]) ≤ headBudget := by
        rw [htotal]
        omega
      have hqueue := hpush []
      simp only [if_pos hfull, pushTail, stateOf, behind_eq_nil.mpr hfit]
      rw [back, total_nil] at hqueue ⊢
      rw [hqueue, front_concat hfull', behind_concat_of_fit hfit, if_neg (Nat.not_le_of_gt hfull),
        List.nil_append, decide_eq_true (Nat.lt_of_not_le hfull'), front_eq_self hfit]
    · have hfull' : total size (redactions ++ [redacted redactLine line]) ≤ headBudget := by
        rw [htotal]
        omega
      simp only [if_neg hfull, stateOf, behind_eq_nil.mpr hfit, behind_eq_nil.mpr hfull',
        front_eq_self hfit,
        front_eq_self hfull', htotal, List.flatten_append, List.flatten_singleton]
      simp [hover, hfull]

theorem readLines_run (lines : List Units) :
    lines.foldl (readStep redactLine headBudget tailBudget) {} =
      stateOf headBudget tailBudget (lines.map (redacted redactLine)) := by
  induction lines using List.reverseRecOn with
  | nil => simp [stateOf, front, behind, back]
  | append_singleton lines line ih =>
    rw [List.foldl_append, ih, List.foldl_cons, List.foldl_nil, readStep_stateOf, List.map_append,
      List.map_singleton]

end Run

/-! ### What is written -/

section Written

variable (redactLine : Units → Units) (text : Units) (maxBytes : ℤ)

def redactions : List Units := (readLines text).map (redacted redactLine)

/-- The lines from the first that does not fit the head. -/
def rest : List Units := behind size (headBudget maxBytes.toNat) (redactions redactLine text)

def keptHead : List Units := front size (headBudget maxBytes.toNat) (redactions redactLine text)

def keptTail : List Units := back size (tailBudget maxBytes.toNat) (rest redactLine text maxBytes)

/-- The copy is within the limit and its bytes are counted; it has all lines, or the first and the
last ones with the marker between them in the place of some lines. -/
structure Truncates (writes : List Units) (result : RedactStreamResult) : Prop where
  bound : (size writes.flatten : ℤ) ≤ maxBytes
  count : result.bytesWritten = size writes.flatten
  all : result.truncated = false → writes.flatten = (redactions redactLine text).flatten
  parts : result.truncated = true → ∃ first missing last,
    readLines text = first ++ missing ++ last ∧ missing ≠ [] ∧
    writes = (first.map (redacted redactLine)).flatten :: marker :: last.map (redacted redactLine)

/-- All lines fit the head; or those behind the head are too many for the tail, of which the last
one fits, and head, marker and tail are within the limit. -/
def Fits : Prop :=
  total size (redactions redactLine text) ≤ headBudget maxBytes.toNat ∨
    tailBudget maxBytes.toNat < total size (rest redactLine text maxBytes) ∧
    (∀ last ∈ (rest redactLine text maxBytes).getLast?, size last ≤ tailBudget maxBytes.toNat) ∧
    (total size (keptHead redactLine text maxBytes) + 49 + total size
      (keptTail redactLine text maxBytes) : ℤ) ≤ maxBytes

instance : Decidable (Fits redactLine text maxBytes) := inferInstanceAs (Decidable (_ ∨ _))

variable {redactLine text maxBytes}

theorem size_flatten_redactions {chunks : List Units}
    (h : ∀ chunk ∈ chunks, chunk = marker ∨ chunk ∈ redactions redactLine text) :
    size chunks.flatten = total size chunks := by
  refine size_flatten fun chunk hmem => ?_
  rcases h chunk hmem with rfl | hchunk
  · exact ⟨ascii "\n... [truncated for diagnostic size limits] ...\n", by decide +kernel⟩
  · obtain ⟨line, -, rfl⟩ := List.mem_map.mp hchunk
    exact ⟨redactLine line, rfl⟩

theorem keptHead_append_rest :
    keptHead redactLine text maxBytes ++ rest redactLine text maxBytes =
    redactions redactLine text :=
  front_append_behind _ _

theorem keptTail_suffix : keptTail redactLine text maxBytes <:+ rest redactLine text maxBytes :=
  back_suffix _ _

/-- Nothing is kept of the last lines exactly if the very last one does not fit. -/
theorem keptTail_eq_nil (hrest : rest redactLine text maxBytes ≠ []) :
    keptTail redactLine text maxBytes = [] ↔
      ¬∀ last ∈ (rest redactLine text maxBytes).getLast?,
        size last ≤ tailBudget maxBytes.toNat := by
  obtain ⟨others, last, hlast⟩ := (List.eq_nil_or_concat' _).resolve_left hrest
  rw [keptTail, hlast, back_concat_eq_nil, List.getLast?_concat]
  simp

theorem redactStream_of_fit (hmax : 1 ≤ maxBytes)
    (hfit : total size (redactions redactLine text) ≤ headBudget maxBytes.toNat) :
    redactStream redactLine text maxBytes =
      ([(redactions redactLine text).flatten],
        ⟨total size (redactions redactLine text), false⟩) := by
  have hstate : stateOf (headBudget maxBytes.toNat) (tailBudget maxBytes.toNat)
    (redactions redactLine text) =
      { written := total size (redactions redactLine text), head :=
        (redactions redactLine text).flatten } := by
    simp [stateOf, front_eq_self hfit, behind_eq_nil.mpr hfit, hfit, back]
  rw [redactStream, if_neg (by omega), readLines_run, ← redactions, hstate]
  rfl

theorem redactStream_of_not_fit (hmax : 1 ≤ maxBytes)
    (hfit : ¬total size (redactions redactLine text) ≤ headBudget maxBytes.toNat) :
    redactStream redactLine text maxBytes = ((keptHead redactLine text maxBytes).flatten ::
        ((if keptTail redactLine text maxBytes ≠ [] then [marker]
          else []) ++ keptTail redactLine text maxBytes),
        ⟨total size (keptHead redactLine text maxBytes) +
          total size ((if keptTail redactLine text maxBytes ≠ [] then [marker]
            else []) ++ keptTail redactLine text maxBytes),
          true⟩) := by
  have hsum : ∀ (chunks : List Units) (written : ℕ),
      chunks.foldl (fun written chunk => written + size chunk) written =
        written + total size chunks := by
    intro chunks
    induction chunks with
    | nil => exact fun written => rfl
    | cons chunk rest ih =>
      intro written
      rw [List.foldl_cons, ih, total_cons, Nat.add_assoc]
  rw [redactStream, if_neg (by omega), readLines_run, ← redactions]
  simp only [stateOf, hsum, Nat.lt_of_not_le hfit, decide_true, true_and]
  rfl

theorem bytesWritten_eq (hmax : 1 ≤ maxBytes) :
    (redactStream redactLine text maxBytes).2.bytesWritten =
      size (redactStream redactLine text maxBytes).1.flatten := by
  by_cases hfit : total size (redactions redactLine text) ≤ headBudget maxBytes.toNat
  · rw [redactStream_of_fit hmax hfit, List.flatten_singleton]
    exact (size_flatten_redactions fun chunk => .inr).symm
  · rw [redactStream_of_not_fit hmax hfit, List.flatten_cons, ← List.flatten_append, ← total_append]
    refine (@size_flatten_redactions redactLine text _ fun chunk hmem => ?_).symm
    rcases List.mem_append.mp hmem with hhead | hmem
    · exact .inr (@keptHead_append_rest redactLine text maxBytes ▸ List.mem_append_left _ hhead)
    · rcases List.mem_append.mp hmem with hmarker | htail
      · split at hmarker
        · exact .inl (List.mem_singleton.mp hmarker)
        · cases hmarker
      · exact .inr (@keptHead_append_rest redactLine text maxBytes ▸ List.mem_append_right _
          (keptTail_suffix.subset htail))

/-- First lines, the marker and last lines are written, and some between are missing, exactly if the
tail keeps a line and drops one. -/
theorem parts_iff (hmax : 1 ≤ maxBytes)
    (hfit : ¬total size (redactions redactLine text) ≤ headBudget maxBytes.toNat) :
    (∃ first missing last, readLines text = first ++ missing ++ last ∧ missing ≠ [] ∧
      (redactStream redactLine text maxBytes).1 =
        (first.map (redacted redactLine)).flatten :: marker :: last.map (redacted redactLine)) ↔
      keptTail redactLine text maxBytes ≠ [] ∧
        tailBudget maxBytes.toNat < total size (rest redactLine text maxBytes) := by
  have hall := @keptHead_append_rest redactLine text maxBytes
  rw [redactStream_of_not_fit hmax hfit]
  constructor
  · rintro ⟨first, missing, last, hlines, hmissing, hwrites⟩
    obtain ⟨hhead, hbehind⟩ := List.cons.inj hwrites
    have htail : keptTail redactLine text maxBytes ≠ [] := by
      intro hnil
      rw [hnil, if_neg (not_not.mpr rfl)] at hbehind
      cases hbehind
    refine ⟨htail, Nat.lt_of_not_le fun hle => hmissing ?_⟩
    -- If the tail keeps everything, the missing lines are in the head and have no bytes.
    have hlast : rest redactLine text maxBytes = last.map (redacted redactLine) := by
      rw [if_pos htail, keptTail, back_eq_self hle] at hbehind
      exact (List.cons.inj hbehind).2
    rw [redactions, hlines, List.map_append, List.map_append, hlast] at hall
    have hboth : (keptHead redactLine text maxBytes).flatten =
        (first.map (redacted redactLine)).flatten ++
          (missing.map (redacted redactLine)).flatten := by
      rw [List.append_cancel_right hall, List.flatten_append]
    have hempty : (missing.map (redacted redactLine)).flatten = [] := by
      rw [hhead] at hboth
      exact List.self_eq_append_right.mp hboth
    cases missing with
    | nil => rfl
    | cons line lines =>
      rw [List.map_cons, List.flatten_cons, redacted] at hempty
      simp at hempty
  · rintro ⟨htail, hover⟩
    obtain ⟨dropped, hdropped⟩ := @keptTail_suffix redactLine text maxBytes
    rw [← hdropped, ← List.append_assoc, redactions] at hall
    obtain ⟨before, last, hlines, hbefore, hlast⟩ := List.map_eq_append_iff.mp hall.symm
    obtain ⟨first, missing, rfl, hfirst, hmissing⟩ := List.map_eq_append_iff.mp hbefore
    refine ⟨first, missing, last, hlines, ?_, ?_⟩
    · rintro rfl
      rw [← hmissing, List.map_nil, List.nil_append] at hdropped
      have hle :=
        total_back_le (w := size) (tailBudget maxBytes.toNat) (rest redactLine text maxBytes)
      rw [← keptTail, hdropped] at hle
      omega
    · rw [if_pos htail, hfirst, hlast]
      rfl

/-- The copy is as promised exactly if the lines fit as described. -/
theorem redactStream_truncates_iff (redactLine : Units → Units) (text : Units) (maxBytes : ℤ)
    (hmax : 1 ≤ maxBytes) :
    Truncates redactLine text maxBytes (redactStream redactLine text maxBytes).1
      (redactStream redactLine text maxBytes).2 ↔ Fits redactLine text maxBytes := by
  have hcount := @bytesWritten_eq redactLine text maxBytes hmax
  by_cases hfit : total size (redactions redactLine text) ≤ headBudget maxBytes.toNat
  · refine ⟨fun _ => .inl hfit, fun _ => ?_⟩
    have hhead : headBudget maxBytes.toNat ≤ maxBytes.toNat := headBudget_le (by omega)
    refine ⟨?_, hcount, fun _ => ?_, fun htruncated => ?_⟩
    · rw [← hcount, redactStream_of_fit hmax hfit]
      dsimp only
      omega
    · rw [redactStream_of_fit hmax hfit, List.flatten_singleton]
    · rw [redactStream_of_fit hmax hfit] at htruncated
      cases htruncated
  · have hrest : rest redactLine text maxBytes ≠ [] := fun hnil => hfit (behind_eq_nil.mp hnil)
    have hparts := @parts_iff redactLine text maxBytes hmax hfit
    -- The bytes when something is kept of the last lines.
    have hbytes : keptTail redactLine text maxBytes ≠ [] →
      (redactStream redactLine text maxBytes).2.bytesWritten =
        total size (keptHead redactLine text maxBytes) + 49 + total size
          (keptTail redactLine text maxBytes) := by
      intro htail
      rw [redactStream_of_not_fit hmax hfit, if_pos htail, total_append, total_cons, total_nil,
        size_marker]
      dsimp only
      omega
    have htruncated : (redactStream redactLine text maxBytes).2.truncated = true := by
      rw [redactStream_of_not_fit hmax hfit]
    constructor
    · intro h
      obtain ⟨htail, hover⟩ := hparts.mp (h.parts htruncated)
      refine .inr ⟨hover, not_not.mp fun hlast => htail ((keptTail_eq_nil hrest).mpr hlast), ?_⟩
      have hbound := h.bound
      rw [← h.count, hbytes htail] at hbound
      exact_mod_cast hbound
    · rintro (h | ⟨hover, hlast, hbound⟩)
      · exact absurd h hfit
      · have htail : keptTail redactLine text maxBytes ≠ [] :=
          fun hnil => (keptTail_eq_nil hrest).mp hnil hlast
        refine ⟨?_, hcount, fun hall => ?_, fun _ => hparts.mpr ⟨htail, hover⟩⟩
        · rw [← hcount, hbytes htail]
          exact_mod_cast hbound
        · rw [htruncated] at hall
          cases hall

end Written

/-- Two lines of which the second, in the middle, is missing. -/
theorem redactStream_three_lines :
    let text := List.replicate 20 97 ++ 10 :: List.replicate 60 98 ++ 10 :: List.replicate 20 99
    Truncates id text 100 (redactStream id text 100).1 (redactStream id text 100).2 := by
  intro text
  exact (redactStream_truncates_iff id text 100 (by decide)).mpr (by decide +kernel)

/-- One short line that does not fit the head is written behind the marker, and more bytes than
allowed. -/
theorem marker_beyond_limit :
    ¬Truncates id (ascii "a\n") 7 (redactStream id (ascii "a\n") 7).1
      (redactStream id (ascii "a\n") 7).2 ∧
      size (redactStream id (ascii "a\n") 7).1.flatten = 51 := by
  have hsize : size (redactStream id (ascii "a\n") 7).1.flatten = 51 := by decide +kernel
  refine ⟨fun h => ?_, hsize⟩
  have hbound := h.bound
  rw [hsize] at hbound
  exact absurd hbound (by decide)

end PS4Droid.Runtime.Diagnostics
