import PS4Droid.Foundations.PathSegments
import PS4Droid.Network.UriParser

/-!
# What sweeping does to a path

An absolute path is normalised: its segments that end with a slash are visited from the left, with a
stack. The loop keeps the segments of the stack in the destination and drops one by cutting the
string there.
-/

namespace PS4Droid.Network.Http

open ByteStrings BoundedBuffers PathSegments

/-- The path without its dot segments. -/
def sweptPath : List UInt8 → List UInt8
  | 47 :: rest => 47 :: normal 47 [46] [46, 46] rest
  | text => text

/-! ### Looking at the source -/

variable {pre bytes more seg leaf rest : List UInt8} {c : UInt8}

theorem strchr_segment (hzero : 0 ∉ seg) (hslash : 47 ∉ seg) (more : List UInt8) :
    strchr (seg ++ 47 :: more) 47 = some (some seg.length) := by
  induction seg with
  | nil => rfl
  | cons c seg ih =>
    rw [List.mem_cons, not_or] at hzero hslash
    rw [List.cons_append, strchr, if_neg (Ne.symm hslash.1), if_neg (Ne.symm hzero.1),
      ih hzero.2 hslash.2]
    rfl

theorem strchr_leaf (hzero : 0 ∉ leaf) (hslash : 47 ∉ leaf) :
    strchr (leaf ++ [0]) 47 = some none := by
  induction leaf with
  | nil => rfl
  | cons c leaf ih =>
    rw [List.mem_cons, not_or] at hzero hslash
    rw [List.cons_append, strchr, if_neg (Ne.symm hslash.1), if_neg (Ne.symm hzero.1),
      ih hzero.2 hslash.2]
    rfl

theorem lastIndex_append (hc : c ∉ seg) (front : List UInt8) :
    lastIndex c (front ++ c :: seg) = some front.length := by
  have hnone : lastIndex c seg = none := by
    induction seg with
    | nil => rfl
    | cons b seg ih =>
      rw [List.mem_cons, not_or] at hc
      rw [lastIndex, ih hc.2, if_neg (Ne.symm hc.1)]
  induction front with
  | nil => rw [List.nil_append, lastIndex, hnone, if_pos rfl, List.length_nil]
  | cons b front ih => rw [List.cons_append, lastIndex, ih, List.length_cons]

theorem segmentAt_append (pre bytes : List UInt8) :
    segmentAt (pre ++ bytes) pre.length = segmentAt bytes 0 := by
  have hat (k : ℕ) : (pre ++ bytes)[pre.length + k]? = bytes[0 + k]? := by
    rw [List.getElem?_append_right (Nat.le_add_right _ _), Nat.add_sub_cancel_left, Nat.zero_add]
  have hfirst : (pre ++ bytes)[pre.length]? = bytes[0]? := hat 0
  rw [segmentAt, segmentAt, hfirst, hat 1, hat 2]

theorem segmentAt_segment (hslash : 47 ∉ seg) (more : List UInt8) :
    segmentAt (seg ++ 47 :: more) 0 =
    some (if seg = [46] then .current else if seg = [46, 46] then .parent else .text) := by
  rcases seg with _ | ⟨a, _ | ⟨b, _ | ⟨c, seg⟩⟩⟩
  · rfl
  · by_cases ha : a = 46
    · subst ha
      rfl
    · simp [segmentAt, ha]
  · by_cases ha : a = 46
    · have hb : b ≠ 47 := by
        rintro rfl
        simp at hslash
      by_cases hb' : b = 46
      · subst ha hb'
        rfl
      · simp [segmentAt, ha, hb, hb']
    · simp [segmentAt, ha]
  · have hbc : b ≠ 47 ∧ c ≠ 47 := by
      refine ⟨?_, ?_⟩ <;> rintro rfl <;> simp at hslash
    by_cases ha : a = 46
    · by_cases hb : b = 46
      · simp [segmentAt, ha, hb, hbc.2]
      · simp [segmentAt, ha, hb, hbc.1]
    · simp [segmentAt, ha]

theorem segmentAt_leaf (hslash : 47 ∉ leaf) (hne : leaf ≠ []) :
    segmentAt (leaf ++ [0]) 0 = some .text := by
  rcases leaf with _ | ⟨a, _ | ⟨b, leaf⟩⟩
  · exact absurd rfl hne
  · by_cases ha : a = 46
    · subst ha
      rfl
    · simp [segmentAt]
  · have hb : b ≠ 47 := by
      rintro rfl
      simp at hslash
    by_cases ha : a = 46
    · by_cases hb' : b = 46
      · rcases leaf with _ | ⟨c, leaf⟩
        · simp [segmentAt, ha, hb']
        · have hc : c ≠ 47 := by
            rintro rfl
            simp at hslash
          simp [segmentAt, ha, hb', hc]
      · simp [segmentAt, ha, hb, hb']
    · simp [segmentAt, ha]

/-! ### The destination -/

variable {before tail built pool : List UInt8} {stack : List (List UInt8)} {size fuel : ℕ}

/-- A string at its place in the pool, which has room for `size` bytes there. -/
def Room (before tail : List UInt8) (size : ℕ) (built pool : List UInt8) : Prop :=
  ∃ junk, pool = before ++ (built ++ 0 :: junk) ++ tail ∧ built.length + 1 + junk.length = size

theorem Room.append (h : Room before tail size built pool) (bytes : List UInt8)
    (hsize : built.length + bytes.length < size) :
    ∃ pool', ((store pool (before.length + built.length) bytes).bind fun pool =>
      store pool (before.length + built.length + bytes.length) [0]) = some pool' ∧
      Room before tail size (built ++ bytes) pool' := by
  obtain ⟨junk, rfl, hlength⟩ := h
  have hroom : (bytes ++ [0]).length ≤ (0 :: junk).length := by
    simp only [List.length_append, List.length_cons, List.length_nil]
    omega
  refine ⟨_, (store_append _ _ _ _).trans (store_middle hroom), junk.drop bytes.length, ?_, ?_⟩
  · simp only [List.append_assoc, List.length_append, List.length_cons, List.length_nil,
      List.drop_succ_cons, List.cons_append, List.nil_append]
  · rw [List.length_append, List.length_drop]
    omega

theorem Room.cut (h : Room before tail size (built ++ more) pool) :
    ∃ pool', store pool (before.length + built.length) [0] = some pool' ∧
      Room before tail size built pool' := by
  obtain ⟨junk, rfl, hlength⟩ := h
  have hroom : ([0] : List UInt8).length ≤ (more ++ 0 :: junk).length := by
    simp only [List.length_append, List.length_cons, List.length_nil]
    omega
  rw [List.append_assoc built]
  refine ⟨_, store_middle hroom, (more ++ 0 :: junk).drop 1, rfl, ?_⟩
  simp only [List.length_append, List.length_cons, List.length_drop] at hlength ⊢
  omega

theorem Room.cString (h : Room before tail size built pool) (hzero : 0 ∉ built) :
    cString pool before.length = some built := by
  obtain ⟨junk, rfl, -⟩ := h
  apply cString_of_slice hzero
  refine slice_eq_some.mpr ⟨before, junk ++ tail, ?_, rfl, List.length_append⟩
  simp only [List.append_assoc, List.cons_append, List.nil_append]

theorem Room.dropSegment (h : Room before tail size (built ++ 47 :: (seg ++ [47])) pool)
    (hzero : 0 ∉ built) (hseg : 0 ∉ seg) (hslash : 47 ∉ seg) :
    ∃ pool', dropSegment pool before.length (some (before.length + (built ++ 47 :: seg).length)) =
      some (pool', some (before.length + built.length)) ∧
        Room before tail size (built ++ [47]) pool' := by
  have hne : (some (before.length + (built ++ 47 :: seg).length)) ≠ some before.length := by
    simp only [List.length_append, List.length_cons, ne_eq, Option.some.injEq]
    omega
  have hshape : built ++ 47 :: (seg ++ [47]) = (built ++ 47 :: seg) ++ [47] := by
    simp only [List.append_assoc, List.cons_append]
  rw [hshape] at h
  obtain ⟨pool₁, hstore₁, hroom₁⟩ := h.cut
  have hzero₁ : 0 ∉ built ++ 47 :: seg := by
    simp only [List.mem_append, List.mem_cons, not_or]
    exact ⟨hzero, by decide, hseg⟩
  have hlast : strrchr pool₁ before.length 47 = some (some (before.length + built.length)) := by
    rw [strrchr, hroom₁.cString hzero₁, Option.map_some, lastIndex_append hslash, Option.map_some]
  -- the slash stays and the string ends behind it
  have hcut : ∃ pool₂, store pool₁ (before.length + built.length + 1) [0] = some pool₂ ∧
      Room before tail size (built ++ [47]) pool₂ := by
    have hsplit : built ++ 47 :: seg = (built ++ [47]) ++ seg := by
      simp only [List.append_assoc, List.cons_append, List.nil_append]
    have hplace : before.length + built.length + 1 = before.length + (built ++ [47]).length := by
      rw [List.length_append]
      rfl
    rw [hplace]
    rw [hsplit] at hroom₁
    exact hroom₁.cut
  obtain ⟨pool₂, hstore₂, hroom₂⟩ := hcut
  refine ⟨pool₂, ?_, hroom₂⟩
  rw [Http.dropSegment, if_neg hne]
  simp only [hstore₁, hlast, hstore₂, Option.bind_eq_bind, Option.bind_some]

/-! ### The loop -/

/-- The directories on the stack, with a slash in front. -/
def absolute (stack : List (List UInt8)) (leaf : List UInt8) : List UInt8 :=
  47 :: join 47 stack leaf

theorem absolute_append (stack : List (List UInt8)) (leaf : List UInt8) :
    absolute stack [] ++ leaf = absolute stack leaf := by
  rw [absolute, absolute, List.cons_append, join, join, List.append_nil]

/-- No directory of the stack holds a terminator. -/
def NulFree (stack : List (List UInt8)) : Prop := ∀ seg ∈ stack, 0 ∉ seg

theorem NulFree.visit (h : NulFree stack) (hseg : 0 ∉ seg) :
    NulFree (visit [46] [46, 46] stack seg) := by
  unfold PathSegments.visit
  split_ifs
  · exact h
  · exact fun other hother => h other (List.dropLast_subset _ hother)
  · intro other hother
    obtain hother | hother := List.mem_append.mp hother
    · exact h other hother
    · rw [List.mem_singleton.mp hother]
      exact hseg

theorem NulFree.join (h : NulFree stack) (hleaf : 0 ∉ leaf) : 0 ∉ join 47 stack leaf := by
  intro hmem
  obtain hmem | hmem := List.mem_append.mp hmem
  · obtain ⟨seg, hseg, hin⟩ := List.mem_flatMap.mp hmem
    obtain hin | hin := List.mem_append.mp hin
    · exact h seg hseg hin
    · exact absurd (List.mem_singleton.mp hin) (by decide)
  · exact hleaf hmem

/-- The directories of the stack stand in the destination, and nothing of the source is lost. -/
structure Swept (before tail : List UInt8) (size : ℕ) (stack : List (List UInt8))
    (pre rest pool : List UInt8) : Prop where
  room : Room before tail size (absolute stack []) pool
  plain : Plain 47 [46] [46, 46] stack
  nulFree : NulFree stack
  unread : 0 ∉ rest
  length_le : (absolute stack []).length ≤ pre.length
  size_eq : size = pre.length + rest.length + 1

theorem length_join_concat (stack : List (List UInt8)) (seg : List UInt8) :
    (join 47 (stack ++ [seg]) []).length = (join 47 stack []).length + seg.length + 1 := by
  rw [join_concat, PathSegments.join, PathSegments.join, List.append_nil, List.length_append,
    List.length_append]
  rfl

theorem Swept.push (h : Swept before tail size stack pre (seg ++ 47 :: rest) pool)
    (hslash : 47 ∉ seg) (hhere : seg ≠ [46]) (hup : seg ≠ [46, 46]) :
    ∃ pool',
      ((store pool (before.length + (absolute stack []).length) (seg ++ [47])).bind fun pool =>
      store pool (before.length + (absolute stack []).length + (seg ++ [47]).length) [0]) =
        some pool' ∧
      Swept before tail size (stack ++ [seg]) (pre ++ (seg ++ [47])) rest pool' := by
  have hle := h.length_le
  have hsize := h.size_eq
  have hzero : 0 ∉ seg ∧ 0 ∉ rest := by
    have hunread := h.unread
    simp only [List.mem_append, List.mem_cons, not_or] at hunread
    exact ⟨hunread.1, hunread.2.2⟩
  simp only [List.length_append, List.length_cons] at hsize
  obtain ⟨pool', hstore, hroom⟩ := h.room.append (seg ++ [47]) (by
    simp only [List.length_append, List.length_cons, List.length_nil]
    omega)
  rw [absolute_append, absolute, ← join_concat] at hroom
  have hplain : Plain 47 [46] [46, 46] (visit [46] [46, 46] stack seg) := h.plain.visit hslash
  have hnul := h.nulFree.visit hzero.1
  rw [PathSegments.visit, if_neg hhere, if_neg hup] at hplain hnul
  refine ⟨pool', hstore, hroom, hplain, hnul, hzero.2, ?_, ?_⟩
  · simp only [absolute, List.length_cons, length_join_concat, List.length_append,
      List.length_nil] at hle ⊢
    omega
  · simp only [List.length_append, List.length_cons, List.length_nil]
    omega

theorem Swept.skip (h : Swept before tail size stack pre ([46] ++ 47 :: rest) pool) :
    Swept before tail size stack (pre ++ [46, 47]) rest pool := by
  have hsize := h.size_eq
  have hle := h.length_le
  refine ⟨h.room, h.plain, h.nulFree,
    fun hmem => h.unread (List.mem_append_right _ (List.mem_cons_of_mem _ hmem)), ?_, ?_⟩
  · rw [List.length_append]
    omega
  · simp only [List.length_append, List.length_cons, List.length_nil] at hsize ⊢
    omega

theorem exists_absolute (stack : List (List UInt8)) :
    ∃ built, absolute stack [] = built ++ [47] := by
  obtain rfl | ⟨stack, seg, rfl⟩ := stack.eq_nil_or_concat'
  · exact ⟨[], rfl⟩
  · refine ⟨absolute stack seg, ?_⟩
    rw [absolute, join_concat, ← absolute_append stack seg, List.append_assoc, absolute_append]
    rfl

theorem Swept.pop (h : Swept before tail size stack pre ([46, 46] ++ 47 :: rest) pool) :
    ∃ pool', dropSegment pool before.length (some (before.length + (join 47 stack []).length)) =
      some (pool', some (before.length + (join 47 stack.dropLast []).length)) ∧
      Swept before tail size stack.dropLast (pre ++ [46, 46, 47]) rest pool' := by
  have hsize := h.size_eq
  have hle := h.length_le
  have hunread : 0 ∉ rest :=
    fun hmem => h.unread (List.mem_append_right _ (List.mem_cons_of_mem _ hmem))
  have hsize' : size = (pre ++ [46, 46, 47]).length + rest.length + 1 := by
    simp only [List.length_append, List.length_cons, List.length_nil] at hsize ⊢
    omega
  obtain rfl | ⟨lower, top, rfl⟩ := stack.eq_nil_or_concat'
  · refine ⟨pool, if_pos rfl, h.room, h.plain, h.nulFree, hunread, ?_, hsize'⟩
    rw [List.length_append]
    exact hle.trans (Nat.le_add_right _ _)
  · have htop : top ∈ lower ++ [top] := List.mem_append_right _ List.mem_cons_self
    have hlower : ∀ seg ∈ lower, seg ∈ lower ++ [top] := fun seg hseg => List.mem_append_left _ hseg
    obtain ⟨built, hbuilt⟩ := exists_absolute lower
    have hlength : built.length = (join 47 lower []).length := by
      have hcount := congrArg List.length hbuilt
      rw [absolute, List.length_cons, List.length_append] at hcount
      exact (Nat.succ.inj hcount).symm
    have hshape : absolute (lower ++ [top]) [] = built ++ 47 :: (top ++ [47]) := by
      rw [absolute, join_concat]
      change absolute lower (top ++ [47]) = _
      rw [← absolute_append, hbuilt, List.append_assoc]
      rfl
    have hzero : 0 ∉ built := by
      intro hmem
      have hin : (0 : UInt8) ∈ absolute lower [] := hbuilt ▸ List.mem_append_left _ hmem
      obtain hin | hin := List.mem_cons.mp hin
      · exact absurd hin (by decide)
      · exact NulFree.join (fun seg hseg => h.nulFree seg (hlower seg hseg)) List.not_mem_nil hin
    have hroom := h.room
    rw [hshape] at hroom
    obtain ⟨pool', hdrop, hroom'⟩ :=
      hroom.dropSegment hzero (h.nulFree top htop) (h.plain top htop).1
    have hstop : (join 47 (lower ++ [top]) []).length = (built ++ 47 :: top).length := by
      rw [length_join_concat, List.length_append, List.length_cons, hlength]
      omega
    rw [List.dropLast_concat, hstop, ← hlength]
    refine ⟨pool', hdrop, hbuilt ▸ hroom', fun seg hseg => h.plain seg (hlower seg hseg),
      fun seg hseg => h.nulFree seg (hlower seg hseg), hunread, ?_, hsize'⟩
    rw [absolute, List.length_cons, length_join_concat] at hle
    rw [absolute, List.length_cons, List.length_append]
    omega

section Reading

variable {src : List UInt8} {srcSize srcPos stop dst n : ℕ}

theorem sweepLoop_text (hlt : srcPos < srcSize - 1) (hsegment : segmentAt src srcPos = some .text)
    (hcopy : copyLength src srcSize srcPos = some bytes.length)
    (hslice : slice src srcPos bytes.length = some bytes) :
    sweepLoop dst src srcSize (fuel + 1) pool srcPos (some stop) =
      ((store pool (stop + 1) bytes).bind fun pool => store pool (stop + 1 + bytes.length) [0]).bind
        fun pool =>
        sweepLoop dst src srcSize fuel pool (srcPos + bytes.length)
        (some (stop + bytes.length)) := by
  have hplace : stop + bytes.length + 1 = stop + 1 + bytes.length := Nat.add_right_comm _ _ _
  rw [sweepLoop, if_pos hlt]
  simp only [hsegment, hcopy, memcpy, hslice, hplace, Option.bind_eq_bind, Option.bind_some,
    Option.bind_assoc]

theorem copyLength_append (pre bytes : List UInt8) (srcSize : ℕ) :
    copyLength (pre ++ bytes) srcSize pre.length =
    (strchr bytes 47).map fun nextSlash => match nextSlash with
      | none => srcSize - pre.length - 1
      | some i => if i + 1 ≤ srcSize - pre.length - 1 then i + 1 else srcSize - pre.length - 1 := by
  rw [copyLength, List.drop_left]
  cases strchr bytes 47 with
  | none => rfl
  | some nextSlash => cases nextSlash <;> rfl

end Reading

/-- From any position on the loop visits the directories of the source that are left, and then
copies the leaf. -/
theorem Swept.loop (rest : List UInt8) (h : Swept before tail size stack pre rest pool)
    (hfuel : rest.length < fuel) :
    ∃ pool', sweepLoop before.length (pre ++ rest ++ [0]) size fuel pool pre.length
      (some (before.length + (join 47 stack []).length)) = some pool' ∧
      Room before tail size (absolute ((directories 47 rest).foldl (visit [46] [46, 46]) stack)
        (leafOf 47 rest)) pool' := by
  induction rest using segment_induction (47 : UInt8) generalizing fuel stack pre pool with
  | leaf leaf hslash =>
    have hplace : before.length + (join 47 stack []).length + 1 =
      before.length + (absolute stack []).length := rfl
    obtain ⟨fuel, rfl⟩ := Nat.exists_eq_succ_of_ne_zero (Nat.ne_zero_of_lt hfuel)
    have hsize := h.size_eq
    rw [directories_of_not_mem hslash, leafOf_of_not_mem hslash, List.foldl_nil]
    by_cases hne : leaf = []
    · subst hne
      rw [sweepLoop, if_neg (by rw [hsize, List.length_nil]; omega)]
      exact ⟨pool, rfl, h.room⟩
    · have hpos := List.length_pos_iff.mpr hne
      obtain ⟨fuel, rfl⟩ := Nat.exists_eq_succ_of_ne_zero
        (Nat.ne_zero_of_lt (Nat.lt_of_lt_of_le hpos (Nat.le_of_lt_succ hfuel)))
      have hle := h.length_le
      obtain ⟨pool', hstore, hroom⟩ := h.room.append leaf (by omega)
      refine ⟨pool', ?_, absolute_append stack leaf ▸ hroom⟩
      have hcopy : copyLength (pre ++ leaf ++ [0]) size pre.length = some leaf.length := by
        rw [List.append_assoc, copyLength_append, strchr_leaf h.unread hslash, Option.map_some,
          hsize]
        congr 1
        dsimp only
        omega
      rw [sweepLoop_text (by omega)
        (by rw [List.append_assoc, segmentAt_append, segmentAt_leaf hslash hne]) hcopy
        (slice_append pre leaf [0])]
      rw [hplace, hstore, Option.bind_some, sweepLoop, if_neg (by omega)]
  | segment seg rest hslash ih =>
    obtain ⟨fuel, rfl⟩ := Nat.exists_eq_succ_of_ne_zero (Nat.ne_zero_of_lt hfuel)
    rw [List.length_append, List.length_cons] at hfuel
    have hless : rest.length < fuel := by omega
    have hplace : before.length + (join 47 stack []).length + 1 =
      before.length + (absolute stack []).length := rfl
    have hsize := h.size_eq
    rw [List.length_append, List.length_cons] at hsize
    have hlt : pre.length < size - 1 := by omega
    have hsegment := segmentAt_segment hslash (rest ++ [0])
    rw [← segmentAt_append pre] at hsegment
    have hsrc : pre ++ (seg ++ 47 :: rest) ++ [0] = pre ++ (seg ++ 47 :: (rest ++ [0])) := by
      simp only [List.append_assoc, List.cons_append]
    rw [directories_cons hslash, leafOf_cons hslash, List.foldl_cons, visit]
    by_cases hhere : seg = [46]
    · subst hhere
      rw [if_pos rfl] at hsegment ⊢
      obtain ⟨pool', hloop, hroom⟩ := ih h.skip hless
      refine ⟨pool', ?_, hroom⟩
      rw [hsrc, sweepLoop, if_pos hlt]
      simp only [hsegment]
      rw [← hloop, List.length_append]
      simp only [List.append_assoc, List.cons_append, List.nil_append]
      rfl
    · rw [if_neg hhere] at hsegment ⊢
      by_cases hup : seg = [46, 46]
      · subst hup
        rw [if_pos rfl] at hsegment ⊢
        obtain ⟨pool₁, hdrop, hswept⟩ := h.pop
        obtain ⟨pool', hloop, hroom⟩ := ih hswept hless
        refine ⟨pool', ?_, hroom⟩
        rw [hsrc, sweepLoop, if_pos hlt]
        simp only [hsegment, hdrop]
        rw [← hloop, List.length_append]
        simp only [List.append_assoc, List.cons_append, List.nil_append]
        rfl
      · rw [if_neg hup] at hsegment ⊢
        obtain ⟨pool₁, hstore, hswept⟩ := h.push hslash hhere hup
        obtain ⟨pool', hloop, hroom⟩ := ih hswept hless
        refine ⟨pool', ?_, hroom⟩
        have hzero : 0 ∉ seg := fun hmem => h.unread (List.mem_append_left _ hmem)
        have hcopy : copyLength (pre ++ (seg ++ 47 :: (rest ++ [0]))) size pre.length =
          some (seg ++ [47]).length := by
          rw [copyLength_append, strchr_segment hzero hslash, Option.map_some, List.length_append]
          exact congrArg some (if_pos (by omega))
        have hslice : slice (pre ++ (seg ++ 47 :: (rest ++ [0]))) pre.length (seg ++ [47]).length =
          some (seg ++ [47]) := by
          have hmiddle := slice_append pre (seg ++ [47]) (rest ++ [0])
          simp only [List.append_assoc, List.cons_append, List.nil_append] at hmiddle
          exact hmiddle
        rw [hsrc, sweepLoop_text hlt hsegment hcopy hslice]
        rw [hplace, hstore, Option.bind_some, ← hloop, length_join_concat]
        simp only [List.append_assoc, List.cons_append, List.nil_append, List.length_append,
          List.length_cons, List.length_nil, Nat.zero_add, ← Nat.add_assoc]

/-! ### The whole path -/

variable {text : List UInt8} {dst : ℕ} {old : List UInt8}

theorem Room.start (before tail : List UInt8) (h : old.length = size) (hsize : 2 ≤ size) :
    ∃ pool', ((store (before ++ old ++ tail) before.length [47]).bind fun pool =>
      store pool (before.length + 1) [0]) = some pool' ∧ Room before tail size [47] pool' := by
  have hmiddle := @store_middle _ [47, 0] before [] old tail (by rw [h]; exact hsize)
  refine ⟨_, (store_append _ _ _ _).trans hmiddle, old.drop 2, rfl, ?_⟩
  rw [List.length_drop, h, List.length_singleton]
  omega

theorem sweptPath_of_head_ne (h : text.head? ≠ some 47) : sweptPath text = text := by
  unfold sweptPath
  split
  · exact absurd rfl h
  · rfl

theorem sweepBytes_room (hnul : 0 ∉ text) (h : old.length = text.length + 1) :
    ∃ pool', sweepBytes (before ++ old ++ tail) before.length (text ++ [0]) (text.length + 1) =
      some pool' ∧ Room before tail (text.length + 1) (sweptPath text) pool' := by
  by_cases hslash : text.head? = some 47
  · obtain ⟨rest, rfl⟩ : ∃ rest, text = 47 :: rest := by
      rcases text with _ | ⟨c, rest⟩
      · cases hslash
      · exact ⟨rest, by rw [Option.some.inj hslash]⟩
    rw [List.length_cons] at h
    obtain ⟨pool₁, hstore, hroom⟩ := Room.start before tail h (by omega)
    have hbegin : sweepBytes (before ++ old ++ tail) before.length (47 :: rest ++ [0])
      ((47 :: rest).length + 1) = if (47 :: rest).length + 1 - 1 ≤ 1 then some pool₁
        else sweepLoop before.length (47 :: rest ++ [0]) ((47 :: rest).length + 1)
          ((47 :: rest).length + 1) pool₁ 1
          (some before.length) := by
      rw [sweepBytes]
      simp only [List.cons_append, List.getElem?_cons_zero, Option.bind_eq_bind, Option.bind_some,
        ne_eq, not_true_eq_false, if_false, ← Option.bind_assoc, hstore]
    rw [hbegin, sweptPath, normal]
    have hunread : 0 ∉ rest := fun hmem => hnul (List.mem_cons_of_mem _ hmem)
    have hswept : Swept before tail (rest.length + 2) [] [47] rest pool₁ :=
      ⟨hroom, by rintro _ ⟨⟩, by rintro _ ⟨⟩, hunread,
        Nat.le_refl _, by rw [List.length_singleton]; omega⟩
    have hfuel : rest.length < rest.length + 2 := Nat.lt_add_of_pos_right Nat.two_pos
    obtain ⟨pool', hloop, hroom'⟩ := hswept.loop rest hfuel
    split_ifs with hshort
    · obtain rfl : rest = [] :=
        List.eq_nil_of_length_eq_zero (by rw [List.length_cons] at hshort; omega)
      exact ⟨pool₁, rfl, hroom⟩
    · exact ⟨pool', hloop, hroom'⟩
  · obtain ⟨c, rest, hsrc, hc⟩ : ∃ c rest, text ++ [0] = c :: rest ∧ c ≠ 47 := by
      rcases text with _ | ⟨c, rest⟩
      · exact ⟨0, [], rfl, by decide⟩
      · exact ⟨c, rest ++ [0], rfl, fun heq => hslash (heq ▸ rfl)⟩
    have hfirst : (text ++ [0])[0]? = some c := by
      rw [hsrc]
      rfl
    have hslice : slice (text ++ [0]) 0 text.length = some text := slice_append [] text [0]
    have hroom : (text ++ [0]).length ≤ old.length := by
      rw [h, List.length_append]
      exact Nat.le_refl _
    rw [sweptPath_of_head_ne hslash]
    refine ⟨before ++ ([] ++ (text ++ [0] ++ old.drop (text ++ [0]).length)) ++ tail, ?_,
      old.drop (text ++ [0]).length, ?_, ?_⟩
    · rw [sweepBytes]
      simp only [hfirst, Option.bind_eq_bind, Option.bind_some, ne_eq, hc, not_false_eq_true,
        if_true, memcpy, Nat.add_sub_cancel, hslice]
      exact (store_append _ _ _ _).trans (@store_middle _ (text ++ [0]) before [] old tail hroom)
    · simp only [List.nil_append, List.append_assoc, List.cons_append]
    · rw [List.length_drop, h, List.length_append, List.length_singleton]
      omega

theorem sweptPath_sweptPath (text : List UInt8) : sweptPath (sweptPath text) = sweptPath text := by
  by_cases h : text.head? = some 47
  · rcases text with _ | ⟨c, rest⟩
    · cases h
    · obtain rfl := Option.some.inj h
      rw [sweptPath, sweptPath, normal_normal]
  · rw [sweptPath_of_head_ne h, sweptPath_of_head_ne h]

theorem mem_of_mem_sweptPath (h : c ∈ sweptPath text) : c ∈ text := by
  by_cases hslash : text.head? = some 47
  · obtain ⟨rest, rfl⟩ := List.head?_eq_some_iff.mp hslash
    rcases List.mem_cons.mp h with rfl | h
    · exact List.mem_cons_self
    · rcases mem_of_mem_normal h with rfl | h
      · exact List.mem_cons_self
      · exact List.mem_cons_of_mem _ h
  · rw [sweptPath_of_head_ne hslash] at h
    exact h

theorem not_mem_sweptPath (hnul : 0 ∉ text) : 0 ∉ sweptPath text :=
  fun h => hnul (mem_of_mem_sweptPath h)

/-- A call with room for it sweeps the path there and changes nothing else. -/
theorem sweep_within (hnul : 0 ∉ text) (hroom : dst + (text.length + 1) ≤ pool.length) :
    ∃ pool' before tail, sceHttpUriSweepPath pool (some dst) (some (text ++ [0]))
    (text.length + 1) = some (.ok, pool') ∧
      Within dst (dst + (text.length + 1)) pool pool' ∧ before.length = dst ∧
      Room before tail (text.length + 1) (sweptPath text) pool' := by
  let before := pool.take dst
  let old := (pool.drop dst).take (text.length + 1)
  let tail := (pool.drop dst).drop (text.length + 1)
  have hpool : pool = before ++ old ++ tail := by
    rw [List.append_assoc, List.take_append_drop, List.take_append_drop]
  have hdst : before.length = dst := by
    rw [List.length_take]
    omega
  have hold : old.length = text.length + 1 := by
    rw [List.length_take, List.length_drop]
    omega
  obtain ⟨pool', hsweep, hroom'⟩ := @sweepBytes_room before tail text old hnul hold
  rw [← hpool, hdst] at hsweep
  refine ⟨pool', before, tail, ?_, ?_, hdst, hroom'⟩
  · rw [sceHttpUriSweepPath, if_neg (Nat.succ_ne_zero _)]
    simp only [hsweep, Option.map_some]
  · obtain ⟨junk, rfl, hlength⟩ := hroom'
    have hnew : (sweptPath text ++ 0 :: junk).length = old.length := by
      rw [List.length_append, List.length_cons, hold]
      omega
    have hwithin := within_exchange before tail hnew
    rw [← hpool, hdst, hold] at hwithin
    exact hwithin

/-- Sweeping stays in its room and leaves the path without its dot segments: another path as it is,
an absolute one with its directories visited from the left on a stack, so that none of them is a dot
segment; a second time changes nothing. -/
theorem sceHttpUriSweepPath_removesDots (hnul : 0 ∉ text)
    (hroom : dst + (text.length + 1) ≤ pool.length) :
    (∃ pool', sceHttpUriSweepPath pool (some dst) (some (text ++ [0])) (text.length + 1) =
      some (.ok, pool') ∧
      Within dst (dst + (text.length + 1)) pool pool' ∧ cString pool' dst = some (sweptPath text)) ∧
      (sweptPath text).length ≤ text.length ∧
      (text.head? ≠ some 47 → sweptPath text = text) ∧
      (∀ rest, text = 47 :: rest →
        sweptPath text = 47 :: join 47 ((directories 47 rest).foldl (visit [46] [46, 46]) [])
        (leafOf 47 rest) ∧
        ∀ seg ∈ directories 47 (sweptPath text).tail, seg ≠ [46] ∧ seg ≠ [46, 46]) ∧
      0 ∉ sweptPath text ∧ sweptPath (sweptPath text) = sweptPath text := by
  obtain ⟨pool', before, tail, hsweep, hwithin, rfl, hroom'⟩ := sweep_within hnul hroom
  have hzero := not_mem_sweptPath hnul
  have hlength : (sweptPath text).length ≤ text.length := by
    obtain ⟨junk, -, hlength⟩ := hroom'
    omega
  refine ⟨⟨pool', hsweep, hwithin, hroom'.cString hzero⟩, hlength, sweptPath_of_head_ne, ?_, hzero,
    sweptPath_sweptPath text⟩
  rintro rest rfl
  exact ⟨rfl, fun seg hseg => (plain_directories_normal 47 [46] [46, 46] rest seg hseg).2⟩

theorem sceHttpUriSweepPath_removesDots_five :
    (∃ pool', sceHttpUriSweepPath (List.replicate 9 7) (some 1)
      (some ([47, 97, 47, 46, 46, 47, 98] ++ [0])) 8 =
      some (.ok, pool') ∧ Within 1 9 (List.replicate 9 7) pool' ∧
      cString pool' 1 = some [47, 98]) ∧ sweptPath [47, 97, 47, 46, 46, 47, 98] = [47, 98] :=
  ⟨(@sceHttpUriSweepPath_removesDots (List.replicate 9 7) [47, 97, 47, 46, 46, 47, 98] 1 (by decide)
    (by decide)).1, by decide⟩

end PS4Droid.Network.Http
