import PS4Droid.Input.FrameText

/-!
# The two ends of the controller link agree

The reader gets back what the encoder was given, and keeps its own promises on every stream of
bytes.
-/

namespace PS4Droid.Input

namespace Reader

/-! ## Lines -/

section Lines

variable {reader : Reader} {line : Bytes}

theorem run_append (reader : Reader) (first second : Bytes) :
    reader.run (first ++ second) = (reader.run first).run second :=
  List.foldl_append

/-- The bytes of a line are kept up to the limit, and the flag tells whether there were more. -/
theorem run_of_notin (hlength : reader.line.length ≤ maxInputFrameBytes) (hline : '\n' ∉ line) :
    reader.run line = { reader with
        line := reader.line ++ line.take (maxInputFrameBytes - reader.line.length)
        overflow :=
          reader.overflow || decide (maxInputFrameBytes < reader.line.length + line.length) } := by
  induction line generalizing reader with
  | nil =>
    have hfits : decide (maxInputFrameBytes < reader.line.length + ([] : Bytes).length) =
      false := by
      simpa using hlength
    rw [hfits, List.take_nil, List.append_nil, Bool.or_false]
    rfl
  | cons c rest ih =>
    obtain ⟨hc, hrest⟩ := not_or.mp (List.mem_cons.not.mp hline)
    have hstep : reader.run (c :: rest) = (reader.receive c).run rest := rfl
    rw [hstep, receive, if_pos (Ne.symm hc)]
    split_ifs with hroom
    · have hsucc : maxInputFrameBytes - reader.line.length =
          maxInputFrameBytes - (reader.line ++ [c]).length + 1 := by
        rw [List.length_append, List.length_singleton]
        omega
      have htotal : (reader.line ++ [c]).length + rest.length =
        reader.line.length + (c :: rest).length := by
        simp only [List.length_append, List.length_cons, List.length_nil]
        omega
      have hfits : (reader.line ++ [c]).length ≤ maxInputFrameBytes := by
        rw [List.length_append, List.length_singleton]
        omega
      rw [ih hfits hrest]
      simp only [hsucc, htotal, List.take_succ_cons, List.append_assoc, List.singleton_append]
    · have hzero : maxInputFrameBytes - reader.line.length = 0 := by omega
      have hmore : maxInputFrameBytes < reader.line.length + (c :: rest).length := by
        rw [List.length_cons]
        omega
      rw [@ih { reader with overflow := true } hlength hrest]
      simp only [hzero, List.take_zero, Bool.true_or, hmore, decide_true, Bool.or_true]

/-- The reader stands at the start of a line. -/
structure AtStart (reader : Reader) : Prop where
  line : reader.line = []
  overflow : reader.overflow = false

theorem AtStart.eq (h : reader.AtStart) :
    { reader with line := [], overflow := false } = reader := by
  rw [← h.line, ← h.overflow]

theorem atStart_create : create.AtStart := ⟨rfl, rfl⟩

theorem atStart_endLine : reader.endLine.AtStart := ⟨rfl, rfl⟩

theorem accept_atStart {snapshot : ControllerSnapshot} (h : reader.AtStart) :
    (reader.accept snapshot).AtStart := by
  unfold accept
  split_ifs
  · exact ⟨h.line, h.overflow⟩
  · exact h

theorem accept_line {snapshot : ControllerSnapshot} :
    { reader with line := line }.accept snapshot =
      { reader.accept snapshot with line := line } := by
  unfold accept
  dsimp only
  split_ifs <;> rfl

theorem run_newline : reader.run ['\n'] = reader.endLine := by
  simp [run, receive]

theorem run_line (h : reader.AtStart) (hline : '\n' ∉ line)
    (hlength : line.length ≤ maxInputFrameBytes) :
    reader.run (line ++ ['\n']) =
      match parseControllerSnapshot (line ++ ['\n']) with
      | none => reader
      | some snapshot => reader.accept snapshot := by
  have hrun : reader.run line = { reader with line := line } := by
    rw [run_of_notin (by simp [h.line]) hline]
    simp [h.line, h.overflow, hlength, List.take_of_length_le hlength]
  rw [run_append, run_newline, hrun, endLine]
  rw [if_neg (by simp [h.overflow])]
  cases parseControllerSnapshot (line ++ ['\n']) with
  | none => exact h.eq
  | some snapshot =>
    simp only [accept_line]
    exact (accept_atStart h).eq

theorem run_long_line (h : reader.AtStart) (hline : '\n' ∉ line)
    (hlength : maxInputFrameBytes < line.length) : reader.run (line ++ ['\n']) = reader := by
  rw [run_append, run_newline, run_of_notin (by simp [h.line]) hline, endLine]
  simp [h.line, h.overflow, hlength, h.eq]

theorem handled_run_of_notin (hline : '\n' ∉ line) :
    (reader.run line).handled = reader.handled := by
  induction line generalizing reader with
  | nil => rfl
  | cons c rest ih =>
    obtain ⟨hc, hrest⟩ := not_or.mp (List.mem_cons.not.mp hline)
    have hstep : reader.run (c :: rest) = (reader.receive c).run rest := rfl
    rw [hstep, ih hrest, receive, if_pos (Ne.symm hc)]
    split_ifs <;> rfl

theorem atStart_run {bytes : Bytes} (h : bytes = [] ∨ bytes.getLast? = some '\n') :
    (create.run bytes).AtStart := by
  obtain rfl | hlast := h
  · exact atStart_create
  · obtain ⟨rest, rfl⟩ := List.getLast?_eq_some_iff.mp hlast
    rw [run_append, run_newline]
    exact atStart_endLine

end Lines

/-! ## Every stream -/

section Streams

variable {reader : Reader}

/-- What the input loop keeps. -/
structure Sound (reader : Reader) : Prop where
  inRange : ∀ snapshot ∈ reader.handled, snapshot.InRange
  received : ∀ slot, reader.received slot = true ↔ ∃ snapshot ∈ reader.handled, snapshot.slot = slot
  last : ∀ snapshot ∈ reader.handled, snapshot.sequence ≤ reader.lastSequence snapshot.slot
  last_mem : ∀ slot, reader.received slot = true →
    ∃ snapshot ∈ reader.handled, snapshot.slot = slot ∧ snapshot.sequence = reader.lastSequence slot
  increasing : reader.handled.Pairwise fun a b => a.slot = b.slot → a.sequence < b.sequence

theorem sound_create : create.Sound where
  inRange := by simp [create]
  received := by simp [create]
  last := by simp [create]
  last_mem := by simp [create]
  increasing := List.Pairwise.nil

theorem Sound.accept {snapshot : ControllerSnapshot} (h : reader.Sound)
    (hrange : snapshot.InRange) :
    (reader.accept snapshot).Sound := by
  unfold Reader.accept
  split_ifs with hnew
  · have hless : ∀ other ∈ reader.handled, other.slot = snapshot.slot →
        other.sequence < snapshot.sequence := by
      intro other hother hslot
      have hreceived := (h.received snapshot.slot).mpr ⟨other, hother, hslot⟩
      have hlast := h.last other hother
      rw [hslot] at hlast
      obtain hnot | hlt := hnew
      · rw [hreceived] at hnot
        cases hnot
      · exact hlast.trans_lt hlt
    constructor
    case inRange =>
      intro other hother
      obtain hother | rfl := List.mem_append.mp hother |>.imp_right List.mem_singleton.mp
      · exact h.inRange other hother
      · exact hrange
    case received =>
      intro slot
      simp only [List.mem_append, List.mem_singleton, Function.update_apply]
      split_ifs with hslot
      · exact ⟨fun _ => ⟨snapshot, Or.inr rfl, hslot.symm⟩, fun _ => rfl⟩
      · rw [h.received slot]
        constructor
        · rintro ⟨other, hother, rfl⟩
          exact ⟨other, Or.inl hother, rfl⟩
        · rintro ⟨other, hother | rfl, rfl⟩
          · exact ⟨other, hother, rfl⟩
          · exact absurd rfl hslot
    case last =>
      intro other hother
      simp only [Function.update_apply]
      obtain hother | rfl := List.mem_append.mp hother |>.imp_right List.mem_singleton.mp
      · split_ifs with hslot
        · exact (hless other hother hslot).le
        · exact h.last other hother
      · rw [if_pos rfl]
    case last_mem =>
      intro slot hreceived
      simp only [Function.update_apply] at hreceived ⊢
      split_ifs at hreceived ⊢ with hslot
      · exact ⟨snapshot, List.mem_append_right _ (List.mem_singleton_self _), hslot.symm, rfl⟩
      · obtain ⟨other, hother, heq⟩ := h.last_mem slot hreceived
        exact ⟨other, List.mem_append_left _ hother, heq⟩
    case increasing =>
      refine List.pairwise_append.mpr ⟨h.increasing, List.pairwise_singleton _ _, ?_⟩
      intro other hother last hlast
      cases List.mem_singleton.mp hlast
      exact hless other hother
  · exact h

theorem Sound.receive (h : reader.Sound) (value : Char) : (reader.receive value).Sound := by
  unfold Reader.receive
  split_ifs
  · exact { h with }
  · exact { h with }
  · unfold endLine
    dsimp only
    split_ifs
    · exact { h with }
    · split
      · exact { h with }
      · rename_i snapshot hparse
        exact { h.accept (parseControllerSnapshot_inRange hparse) with }

theorem Sound.run (h : reader.Sound) (bytes : Bytes) : (reader.run bytes).Sound := by
  induction bytes generalizing reader with
  | nil => exact h
  | cons value rest ih => exact ih (h.receive value)

/-- What the handler sees of a stream. -/
structure Keeps (reader : Reader) : Prop where
  inRange : ∀ snapshot ∈ reader.handled, snapshot.InRange
  increasing : ∀ slot,
    ((reader.handled.filter (·.slot = slot)).map ControllerSnapshot.sequence).Pairwise (· < ·)
  neutral_slots : reader.disconnect.map ControllerSnapshot.slot =
    [0, 1, 2, 3].filter fun slot => slot ∈ reader.handled.map ControllerSnapshot.slot
  neutral : ∀ last ∈ reader.disconnect, last = { slot := last.slot, sequence := last.sequence }
  neutral_sequence : ∀ last ∈ reader.disconnect,
    (∀ snapshot ∈ reader.handled, snapshot.slot = last.slot → snapshot.sequence < last.sequence) ∨
    last.sequence = 2 ^ 64 - 1 ∧
      ∃ snapshot ∈ reader.handled, snapshot.slot = last.slot ∧ snapshot.sequence = 2 ^ 64 - 1

theorem Sound.keeps (h : reader.Sound) : reader.Keeps where
  inRange := h.inRange
  increasing slot := by
    rw [List.pairwise_map]
    refine (h.increasing.filter _).imp_of_mem ?_
    intro a b ha hb hless
    have ha := (List.mem_filter.mp ha).2
    have hb := (List.mem_filter.mp hb).2
    simp only [decide_eq_true_eq] at ha hb
    exact hless (ha.trans hb.symm)
  neutral_slots := by
    have hslot : ∀ slots : List ℤ,
      (slots.map reader.neutral).map ControllerSnapshot.slot = slots := by
      intro slots
      rw [List.map_map]
      exact List.map_id _
    rw [disconnect, hslot]
    refine List.filter_congr fun slot _ => ?_
    rw [Bool.eq_iff_iff, h.received slot, decide_eq_true_eq, List.mem_map]
  neutral last hlast := by
    obtain ⟨slot, -, rfl⟩ := List.mem_map.mp hlast
    rfl
  neutral_sequence last hlast := by
    obtain ⟨slot, hmem, rfl⟩ := List.mem_map.mp hlast
    by_cases hmax : reader.lastSequence slot = 2 ^ 64 - 1
    · obtain ⟨snapshot, hsnapshot, hslot, heq⟩ := h.last_mem slot (List.mem_filter.mp hmem).2
      refine Or.inr ⟨?_, snapshot, hsnapshot, hslot, heq.trans hmax⟩
      simp only [Reader.neutral, hmax, if_true]
    · refine Or.inl fun snapshot hsnapshot hslot => ?_
      have hle := h.last snapshot hsnapshot
      have hslot : snapshot.slot = slot := hslot
      rw [hslot] at hle
      simp only [Reader.neutral, if_neg hmax]
      exact Nat.lt_succ_of_le hle

end Streams

end Reader

/-! ## The link -/

section Link

variable {F : Type} {format : FloatFormat F}

/-- What the handler should get for a submission. -/
def Submission.native (submission : Submission F format) : Option ControllerSnapshot :=
  (quantise submission.snapshot).map fun numbers => numbers.native submission.slot 0

def ControllerSnapshot.unnumbered (snapshot : ControllerSnapshot) : ControllerSnapshot :=
  { snapshot with sequence := 0 }

/-- What the submissions of a connection are. -/
structure Submission.Valid (submission : Submission F format) : Prop where
  slot : 0 ≤ submission.slot ∧ submission.slot ≤ 3
  buttons : 0 ≤ submission.snapshot.buttons

/-- Between two frames the reader has not seen more than the encoder has sent. -/
structure Linked (encoder : Encoder F format) (reader : Reader) : Prop where
  start : reader.AtStart
  nonneg : ∀ slot, 0 ≤ encoder.sequence slot
  last : ∀ slot, (reader.lastSequence slot : ℤ) ≤ encoder.sequence slot

variable {encoder : Encoder F format} {reader : Reader} {submission : Submission F format}

theorem run_frame_eq {slot sequence : ℤ} {numbers : Quantised} (hstart : reader.AtStart)
    (hslot : 0 ≤ slot ∧ slot ≤ 3) (hsequence : sequence.natAbs < 2 ^ 64)
    (hrange : numbers.InRange) :
    reader.run (frame slot sequence numbers) =
      match parseControllerSnapshot (frame slot sequence numbers) with
      | none => reader
      | some snapshot => reader.accept snapshot := by
  rw [frame_eq, Reader.run_line hstart (newline_notin_frameLine slot sequence numbers)
    (length_frameLine_le (fields_natAbs_lt hslot hsequence hrange))]

theorem run_frame {slot sequence : ℤ} {numbers : Quantised} (hstart : reader.AtStart)
    (hslot : 0 ≤ slot ∧ slot ≤ 3) (hsequence : 0 ≤ sequence ∧ sequence < 2 ^ 64)
    (hrange : numbers.InRange) :
    reader.run (frame slot sequence numbers) =
      reader.accept (numbers.native slot sequence.toNat) := by
  rw [run_frame_eq hstart hslot (by omega) hrange,
    parseControllerSnapshot_frame hslot hsequence hrange]

theorem run_frame_of_neg {slot sequence : ℤ} {numbers : Quantised} (hstart : reader.AtStart)
    (hslot : 0 ≤ slot ∧ slot ≤ 3) (hsequence : -2 ^ 63 ≤ sequence ∧ sequence < 0)
    (hrange : numbers.InRange) : reader.run (frame slot sequence numbers) = reader := by
  rw [run_frame_eq hstart hslot (by omega) hrange,
    parseControllerSnapshot_frame_of_neg hslot hsequence.2]

/-- The encoder after a frame. -/
def Encoder.next (encoder : Encoder F format) (submission : Submission F format) :
    Encoder F format where
  previous := Function.update encoder.previous submission.slot (some submission.snapshot)
  sequence := Function.update encoder.sequence submission.slot
    ((encoder.sequence submission.slot + 1).bmod (2 ^ 64))

theorem bmod_of_lt {n : ℤ} (hnonneg : 0 ≤ n) (hlt : n < 2 ^ 63) : n.bmod (2 ^ 64) = n := by
  apply Int.bmod_eq_of_le <;> norm_num <;> omega

theorem Linked.encode (h : Linked encoder reader) (hvalid : submission.Valid)
    (hcount : encoder.sequence submission.slot + 1 < 2 ^ 63) :
    let sent := (quantise submission.snapshot).map
      (frame submission.slot ((encoder.sequence submission.slot + 1).bmod (2 ^ 64)))
    Linked (encoder.next submission) (reader.run (sent.getD [])) ∧
      (reader.run (sent.getD [])).handled.map ControllerSnapshot.unnumbered =
        reader.handled.map ControllerSnapshot.unnumbered ++ submission.native.toList := by
  have hnonneg := h.nonneg submission.slot
  rw [bmod_of_lt (by omega) hcount]
  have hsequence : ∀ slot, (encoder.next submission).sequence slot =
      if slot = submission.slot then encoder.sequence submission.slot + 1
        else encoder.sequence slot := by
    intro slot
    rw [Encoder.next, bmod_of_lt (by omega) hcount]
    exact Function.update_apply _ _ _ _
  have hnext : ∀ slot, 0 ≤ (encoder.next submission).sequence slot ∧
      encoder.sequence slot ≤ (encoder.next submission).sequence slot := by
    intro slot
    have hslot := h.nonneg slot
    rw [hsequence]
    split_ifs with heq
    · subst heq
      omega
    · omega
  dsimp only
  cases hquantise : quantise submission.snapshot with
  | none =>
    refine ⟨⟨h.start, fun slot => (hnext slot).1, fun slot => (h.last slot).trans (hnext slot).2⟩,
      ?_⟩
    simp [Submission.native, hquantise, Reader.run]
  | some numbers =>
    rw [Option.map_some, Option.getD_some, run_frame h.start hvalid.slot ⟨by omega, by omega⟩
      (quantise_inRange hvalid.buttons hquantise)]
    have hlast := h.last submission.slot
    have hnew : reader.lastSequence submission.slot <
      (encoder.sequence submission.slot + 1).toNat := by
      omega
    have haccept : reader.accept (numbers.native submission.slot
        (encoder.sequence submission.slot + 1).toNat) = _ := if_pos (Or.inr hnew)
    rw [haccept]
    refine ⟨⟨⟨h.start.line, h.start.overflow⟩, fun slot => (hnext slot).1, fun slot => ?_⟩, ?_⟩
    · simp only [Function.update_apply, hsequence]
      have hnative : (numbers.native submission.slot
          (encoder.sequence submission.slot + 1).toNat).slot = submission.slot := rfl
      rw [hnative]
      split_ifs
      · simp only [Quantised.native]
        omega
      · exact h.last slot
    · simp [Submission.native, hquantise, ControllerSnapshot.unnumbered, Quantised.native]

theorem linked_create : Linked (Encoder.create : Encoder F format) Reader.create where
  start := Reader.atStart_create
  nonneg _ := le_refl 0
  last _ := le_refl 0

variable [DecidableEq F]

/-- The submissions that differ from the one before of their slot. -/
def changes (previous : ℤ → Option (Snapshot F format)) :
    List (Submission F format) → List (Submission F format)
  | [] => []
  | submission :: rest =>
    let later := changes (Function.update previous submission.slot (some submission.snapshot)) rest
    if previous submission.slot = some submission.snapshot then later else submission :: later

theorem encode_of_eq (hslot : 0 ≤ submission.slot ∧ submission.slot ≤ 3)
    (heq : encoder.previous submission.slot = some submission.snapshot) :
    encoder.encode submission.slot submission.snapshot = (encoder, some []) := by
  rw [Encoder.encode, if_neg (not_not.mpr hslot), if_pos heq]

theorem encode_of_ne (hslot : 0 ≤ submission.slot ∧ submission.slot ≤ 3)
    (hne : encoder.previous submission.slot ≠ some submission.snapshot) :
    encoder.encode submission.slot submission.snapshot = (encoder.next submission,
      (quantise submission.snapshot).map
        (frame submission.slot ((encoder.sequence submission.slot + 1).bmod (2 ^ 64)))) := by
  rw [Encoder.encode, if_neg (not_not.mpr hslot), if_neg hne]
  rfl

theorem Linked.send {submissions : List (Submission F format)} (h : Linked encoder reader)
    (hvalid : ∀ submission ∈ submissions, submission.Valid)
    (hcount : ∀ slot, encoder.sequence slot +
      (changes encoder.previous submissions).countP (·.slot = slot) < 2 ^ 63) :
    (reader.run (encoder.send submissions)).handled.map ControllerSnapshot.unnumbered =
      reader.handled.map ControllerSnapshot.unnumbered ++
        (changes encoder.previous submissions).filterMap Submission.native := by
  induction submissions generalizing encoder reader with
  | nil => simp [Encoder.send, changes, Reader.run]
  | cons submission rest ih =>
    have hfirst := hvalid submission List.mem_cons_self
    have hrest : ∀ submission ∈ rest, submission.Valid :=
      fun submission hmem => hvalid submission (List.mem_cons_of_mem _ hmem)
    rw [changes] at hcount ⊢
    rw [Encoder.send]
    by_cases heq : encoder.previous submission.slot = some submission.snapshot
    · have hsame : Function.update encoder.previous submission.slot (some submission.snapshot) =
          encoder.previous := by
        rw [← heq, Function.update_eq_self]
      simp only [encode_of_eq hfirst.slot heq, if_pos heq, hsame] at hcount ⊢
      exact ih h hrest hcount
    · simp only [encode_of_ne hfirst.slot heq, if_neg heq] at hcount ⊢
      have hslot := hcount submission.slot
      rw [List.countP_cons_of_pos (by simp)] at hslot
      have hnonneg := h.nonneg submission.slot
      obtain ⟨hlinked, hhandled⟩ := h.encode hfirst (by push_cast at hslot; omega)
      rw [Reader.run_append, ih hlinked hrest, hhandled, List.append_assoc]
      · congr 1
        cases hnative : submission.native <;> simp [hnative, Encoder.next]
      · intro slot
        have hslot := hcount slot
        rw [List.countP_cons] at hslot
        simp only [Encoder.next, Function.update_apply] at hslot ⊢
        split_ifs with heqslot
        · subst heqslot
          simp only [decide_true, if_true] at hslot
          rw [bmod_of_lt (by omega) (by omega)]
          omega
        · simp only [Ne.symm heqslot, decide_false, Bool.false_eq_true, if_false,
            Nat.add_zero] at hslot
          exact hslot

theorem foldl_run (reader : Reader) (chunks : List Bytes) :
    chunks.foldl Reader.run reader = reader.run chunks.flatten := by
  induction chunks generalizing reader with
  | nil => rfl
  | cons chunk rest ih => rw [List.foldl_cons, ih, List.flatten_cons, Reader.run_append]

/-- Every change without NaN reaches the handler once and in order, as long as the sequence numbers
are not negative; and on every stream the input loop keeps its promises. -/
theorem handled_send {submissions : List (Submission F format)} {chunks : List Bytes}
    (hvalid : ∀ submission ∈ submissions, submission.Valid)
    (hcount : ∀ slot, (changes (fun _ => none) submissions).countP (·.slot = slot) < 2 ^ 63)
    (hchunks : chunks.flatten = Encoder.create.send submissions) :
    (chunks.foldl Reader.run Reader.create).handled.map ControllerSnapshot.unnumbered =
        (changes (fun _ => none) submissions).filterMap Submission.native ∧
      (∀ stream : List Bytes, (stream.foldl Reader.run Reader.create).Keeps) ∧
      (∀ before line after : Bytes, before = [] ∨ before.getLast? = some '\n' → '\n' ∉ line →
        512 < line.length →
        Reader.create.run (before ++ line ++ '\n' :: after) = Reader.create.run (before ++ after)) ∧
      (∀ before line : Bytes, '\n' ∉ line →
        (Reader.create.run (before ++ line)).handled = (Reader.create.run before).handled) := by
  refine ⟨?_, fun stream => ?_, fun before line after hbefore hline hlength => ?_,
    fun before line hline => ?_⟩
  · rw [foldl_run, hchunks, linked_create.send hvalid]
    · rfl
    · intro slot
      have hslot := hcount slot
      simp only [Encoder.create]
      omega
  · rw [foldl_run]
    exact (Reader.sound_create.run _).keeps
  · have hsplit : before ++ line ++ '\n' :: after = before ++ ((line ++ ['\n']) ++ after) := by simp
    rw [hsplit, Reader.run_append, Reader.run_append,
      Reader.run_long_line (Reader.atStart_run hbefore) hline hlength, Reader.run_append]
  · rw [Reader.run_append]
    exact Reader.handled_run_of_notin hline

/-! ### Samples -/

/-- Numbers without rounding, and NaN. -/
def exactFormat : FloatFormat (Option ℚ) where
  value := id
  round := id
  round_mono _ _ h := h
  round_int _ _ := rfl

def sample (leftX : Option ℚ) (pressed : Bool) : Submission (Option ℚ) exactFormat where
  slot := 0
  snapshot := {
    buttons := if pressed then 1 else 0
    leftX := leftX
    leftY := some 0
    rightX := some 0
    rightY := some 0
    leftTrigger := some 0
    rightTrigger := some 0
    touchDown := false
    touchX := some 0
    touchY := some 0
    buttons_mem := by split <;> norm_num
    touchX_mem := by rintro x ⟨⟩; norm_num
    touchY_mem := by rintro y ⟨⟩; norm_num }

theorem valid_sample (leftX : Option ℚ) (pressed : Bool) : (sample leftX pressed).Valid where
  slot := ⟨le_refl 0, by norm_num [sample]⟩
  buttons := by
    simp only [sample]
    split <;> norm_num

theorem handled_send_sample :
    (([Encoder.create.send [sample (some 0) true, sample (some 0) true]].foldl Reader.run
        Reader.create).handled.map ControllerSnapshot.unnumbered =
        (changes (fun _ => none) [sample (some 0) true, sample (some 0) true]).filterMap
          Submission.native) := by
  refine (handled_send ?_ ?_ ?_).1
  · intro submission hmem
    simp only [List.mem_cons, List.not_mem_nil, or_false, or_self] at hmem
    subst hmem
    exact valid_sample _ _
  · intro slot
    refine List.countP_le_length.trans_lt ?_
    simp [changes]
  · simp

/-- A button that is pressed and released in turn. -/
def alternating : ℕ → Bool → List (Submission (Option ℚ) exactFormat)
  | 0, _ => []
  | n + 1, pressed => sample (some 0) pressed :: alternating n !pressed

theorem sample_ne (pressed : Bool) :
    (sample (some 0) pressed).snapshot ≠ (sample (some 0) !pressed).snapshot := by
  cases pressed <;> simp [sample]

theorem exists_quantise_sample (pressed : Bool) :
    ∃ numbers, quantise (sample (some 0) pressed).snapshot = some numbers := ⟨_, rfl⟩

theorem length_handled_alternating (n : ℕ) {pressed : Bool}
    {encoder : Encoder (Option ℚ) exactFormat}
    {reader : Reader} (h : Linked encoder reader) (hsum : encoder.sequence 0 + (n + 1) = 2 ^ 63)
    (hprevious : encoder.previous 0 ≠ some (sample (some 0) pressed).snapshot) :
    (reader.run (encoder.send (alternating (n + 1) pressed))).handled.length =
      reader.handled.length + n ∧
      (changes encoder.previous (alternating (n + 1) pressed)).length = n + 1 := by
  induction n generalizing encoder reader pressed with
  | zero =>
    have hvalid := valid_sample (some 0) pressed
    obtain ⟨numbers, hnumbers⟩ := exists_quantise_sample pressed
    have hsequence : (encoder.sequence 0 + 1).bmod (2 ^ 64) = -2 ^ 63 := by
      rw [show encoder.sequence 0 + 1 = 2 ^ 63 by omega]
      rfl
    have hencode := @encode_of_ne _ _ encoder (sample (some 0) pressed) _ hvalid.slot hprevious
    have hrange := quantise_inRange hvalid.buttons hnumbers
    have hslot : (sample (some 0) pressed).slot = 0 := rfl
    simp only [alternating, Encoder.send, hencode, hnumbers, changes]
    rw [hslot, hsequence, if_neg hprevious]
    refine ⟨?_, rfl⟩
    rw [Option.map_some, Option.getD_some, List.append_nil,
      run_frame_of_neg h.start (by omega) ⟨le_refl _, by norm_num⟩ hrange, Nat.add_zero]
  | succ n ih =>
    have hvalid := valid_sample (some 0) pressed
    have hnonneg := h.nonneg 0
    have hprevious' : encoder.previous (sample (some 0) pressed).slot ≠
        some (sample (some 0) pressed).snapshot := hprevious
    have hencode := encode_of_ne hvalid.slot hprevious'
    obtain ⟨hlinked, hhandled⟩ := h.encode hvalid (by
      have hslot : (sample (some 0) pressed).slot = 0 := rfl
      rw [hslot]
      push_cast at hsum
      omega)
    have hlength := congrArg List.length hhandled
    simp only [List.length_map, List.length_append] at hlength
    have hnative : (sample (some 0) pressed).native.toList.length = 1 := rfl
    have hnext := @ih (!pressed) _ _ hlinked ?_ ?_
    · rw [alternating, Encoder.send, changes, hencode]
      simp only [Reader.run_append]
      rw [if_neg hprevious']
      refine ⟨?_, ?_⟩
      · rw [hnext.1, hlength, hnative]
        omega
      · rw [List.length_cons]
        exact congrArg (· + 1) hnext.2
    · push_cast at hsum
      have hbmod := bmod_of_lt (n := encoder.sequence 0 + 1) (by omega) (by omega)
      simp only [Encoder.next, sample, Function.update_self, hbmod]
      omega
    · have hupdate : (encoder.next (sample (some 0) pressed)).previous 0 =
          some (sample (some 0) pressed).snapshot :=
        Function.update_self (sample (some 0) pressed).slot _ encoder.previous
      rw [hupdate]
      exact fun heq => sample_ne pressed (Option.some.inj heq)

/-- The numbers of the last frame of a slot. -/
def lastFrame : Bytes := frame 0 (2 ^ 64 - 1)
  { buttons := 0, leftX := 128, leftY := 128, rightX := 128, rightY := 128, leftTrigger := 0
    rightTrigger := 0, touchDown := false, touchX := 0, touchY := 0 }

/-- `encode` throws on NaN; after 2 ^ 63 - 1 changes the sequence numbers are negative; and the
neutral snapshot repeats the largest sequence number. -/
theorem link_limits :
    ((Reader.create.run (Encoder.create.send [sample none true])).handled = [] ∧
      changes (fun _ => none) [sample none true] = [sample none true]) ∧
    (Reader.create.run (Encoder.create.send (alternating (2 ^ 63 - 1 + 1) true))).handled.length <
      (changes (fun _ => none) (alternating (2 ^ 63 - 1 + 1) true)).length ∧
    (Reader.create.run lastFrame).handled.map ControllerSnapshot.sequence = [2 ^ 64 - 1] ∧
    (Reader.create.run lastFrame).disconnect.map ControllerSnapshot.sequence = [2 ^ 64 - 1] := by
  refine ⟨⟨?_, ?_⟩, ?_, ?_⟩
  · rfl
  · rfl
  · have hlength :=
      @length_handled_alternating (2 ^ 63 - 1) true _ _ linked_create (by norm_num [Encoder.create])
      (by simp [Encoder.create])
    have hzero : Reader.create.handled.length = 0 := rfl
    have hchanges : (changes (fun _ => none) (alternating (2 ^ 63 - 1 + 1) true)).length =
      2 ^ 63 - 1 + 1 :=
      hlength.2
    rw [hlength.1, hzero, hchanges]
    omega
  · rw [lastFrame, run_frame Reader.atStart_create (by omega) ⟨by norm_num, by norm_num⟩
      (by constructor <;> norm_num)]
    constructor <;> rfl

end Link

end PS4Droid.Input
