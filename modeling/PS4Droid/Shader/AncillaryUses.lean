import PS4Droid.Shader.PackedAncillary

/-!
# All uses of the packed ancillary register

The first extraction that the pass visits gets its field; those visited after it extract from zero.
-/

namespace PS4Droid.Shader.IR

variable {pool pool' : Pool} {id u producer : ℕ} {v base : Value} {attr : Attribute}
  {offset bits : BitVec 32}
  {start width : ℕ} {anc : Ancillary} {ids rest insts : List ℕ} {log : List (ℕ × Value)}
  {blocks blocks' : List (List ℕ)}

/-! ### The first use -/

/-- The attribute that holds a range, with the place of its field. -/
inductive FieldRange (offset bits : ℕ) : Attribute → ℕ → ℕ → Prop
  | sampleIndex (hle : 8 ≤ offset)
      (hlt : offset + bits ≤ 12) : FieldRange offset bits .sampleIndex 8 4
  | renderTargetIndex (hle : 16 ≤ offset)
      (hlt : offset + bits ≤ 27) : FieldRange offset bits .renderTargetIndex 16 11

variable {w o b : ℕ} {folded : Folded} {log' : List (ℕ × Value)}

theorem bitFieldUExtract_all (x : BitVec w) :
    bitFieldUExtract (x.setWidth 32) 0 w = x.setWidth 32 := by
  apply BitVec.eq_of_getLsbD_eq
  intro i hi
  by_cases hw : i < w
  · simp [bitFieldUExtract, hi, hw]
  · simp [bitFieldUExtract, hi, hw, BitVec.getLsbD_of_ge x i (Nat.le_of_not_lt hw)]

theorem FieldRange.attribute {offset bits : ℕ} (h : FieldRange offset bits attr start width)
    (anc : Ancillary) :
    ∃ word, anc.attribute attr = some (.u32 word) ∧
      anc.field offset bits = bitFieldUExtract word (offset - start) bits ∧
      (offset = start → bits = width → anc.field offset bits = word) ∧ offset - start < 32 ∧
        bits < 32 ∧
      offset - start + bits ≤ 32 := by
  cases h with
  | sampleIndex hle hlt =>
    refine ⟨_, rfl, if_pos hlt, ?_, by omega, by omega, by omega⟩
    rintro rfl rfl
    exact (if_pos hlt).trans (bitFieldUExtract_all _)
  | renderTargetIndex hle hlt =>
    have hnot : ¬offset + bits ≤ 12 := by omega
    refine ⟨_, rfl, if_neg hnot, ?_, by omega, by omega, by omega⟩
    rintro rfl rfl
    exact (if_neg hnot).trans (bitFieldUExtract_all _)

theorem foldPackedAncillary_of_extracts (h : pool.Extracts producer u offset bits)
    (hop : (pool.insts producer).opcode = .getAttributeU32)
    (hpacked : (pool.insts producer).arg 0 = .attr .packedAncillary) :
    ∃ attr start width, FieldRange offset.toNat bits.toNat attr start width ∧
      foldPackedAncillary pool u =
      .ok (some (foldAncillaryField pool u producer attr offset.toNat bits.toNat start width)) := by
  obtain ⟨a, b, c, hargs, ha, hb, hc⟩ := h.1.args
  have harg0 : (pool.insts u).arg 0 = a := by rw [Inst.arg, hargs]; rfl
  have harg1 : (pool.insts u).arg 1 = b := by rw [Inst.arg, hargs]; rfl
  have harg2 : (pool.insts u).arg 2 = c := by rw [Inst.arg, hargs]; rfl
  have hsum : offset.toNat + bits.toNat ≤ 27 := by rcases h.2 with h | h <;> omega
  have hadd : (offset + bits).toNat = offset.toNat + bits.toNat := by
    rw [BitVec.toNat_add]
    exact Nat.mod_eq_of_lt (by omega)
  unfold foldPackedAncillary
  simp only [harg0, harg1, harg2, ha, hb, hc, hop, hpacked, and_self, if_true]
  rcases h.2 with ⟨hle, hlt⟩ | ⟨hle, hlt⟩
  · have hfirst : 8 ≤ offset ∧ offset + bits ≤ 12 := by
      rw [BitVec.le_def, BitVec.le_def, hadd]
      exact ⟨hle, hlt⟩
    rw [if_pos hfirst]
    exact ⟨_, _, _, .sampleIndex hle hlt, rfl⟩
  · have hfirst : ¬(8 ≤ offset ∧ offset + bits ≤ 12) := by
      rw [BitVec.le_def, BitVec.le_def, hadd]
      have hnot : ¬offset.toNat + bits.toNat ≤ 12 := by omega
      exact fun h => hnot h.2
    have hsecond : 16 ≤ offset ∧ offset + bits ≤ 27 := by
      rw [BitVec.le_def, BitVec.le_def, hadd]
      exact ⟨hle, hlt⟩
    rw [if_neg hfirst, if_pos hsecond]
    exact ⟨_, _, _, .renderTargetIndex hle hlt, rfl⟩

/-- The value that takes the place of the extraction has the bits of its range. -/
theorem yields_readField {offset bits : ℕ} (h : FieldRange offset bits attr start width)
    (hsame : ∀ x, pool.size ≤ x → x < (pool.readField attr offset bits start width).1.size →
      pool'.insts x = (pool.readField attr offset bits start width).1.insts x) :
    pool'.Yields anc (.inst (pool.readField attr offset bits start width).2)
    (.u32 (anc.field offset bits)) := by
  obtain ⟨word, hattr, hfield, hwhole, hoffset, hbits, hle⟩ := h.attribute anc
  have hread (hinst : pool'.insts pool.size = ⟨.getAttributeU32, [.attr attr, .u32 0], []⟩)
    (bound : ℕ) :
      pool'.evalWithin anc (bound + 1) (.inst pool.size) = some (.u32 word) := by
    rw [Pool.evalWithin, hinst, if_pos rfl]
    exact hattr
  unfold Pool.readField at hsame ⊢
  simp only at hsame ⊢
  split_ifs at hsame ⊢ with hall
  · refine ⟨1, ?_⟩
    have hinst := hsame pool.size le_rfl (Nat.lt_succ_self _)
    rw [insts_create_self] at hinst
    rw [hread hinst, hwhole hall.1 hall.2]
  · refine ⟨2, ?_⟩
    have hsize : pool.size ≠ pool.size + 1 := (Nat.lt_succ_self _).ne
    have hinst := hsame pool.size le_rfl ((Nat.lt_succ_self _).trans (Nat.lt_succ_self _))
    rw [insts_create_other hsize, insts_create_self] at hinst
    have hlast := hsame (pool.size + 1) (Nat.le_succ _) (Nat.lt_succ_self _)
    rw [show pool.size + 1 =
      (pool.create ⟨.getAttributeU32, [.attr attr, .u32 0], []⟩).size from rfl,
      insts_create_self] at hlast
    rw [Pool.evalWithin, hlast, if_neg nofun]
    have hdata : [Value.inst pool.size, .u32 (BitVec.ofNat 32 (offset - start)),
      .u32 (BitVec.ofNat 32 bits)].mapM
        (pool'.evalWithin anc 1) =
        some [.u32 word, .u32 (BitVec.ofNat 32 (offset - start)), .u32 (BitVec.ofNat 32 bits)] := by
      simp only [List.mapM_cons, List.mapM_nil, hread hinst 0]
      rfl
    have hoffset' : (BitVec.ofNat 32 (offset - start)).toNat = offset - start :=
      Nat.mod_eq_of_lt (by omega)
    have hbits' : (BitVec.ofNat 32 bits).toNat = bits := Nat.mod_eq_of_lt (by omega)
    rw [hdata]
    change meaningU32U32U32 .bitFieldUExtract word _ _ = _
    rw [meaningU32U32U32, hoffset', hbits', if_pos hle, hfield]

theorem constantPropagation_of_extracts (h : pool.Extracts producer u offset bits)
    (hop : (pool.insts producer).opcode = .getAttributeU32)
    (hpacked : (pool.insts producer).arg 0 = .attr .packedAncillary) :
    ∃ attr start width, FieldRange offset.toNat bits.toNat attr start width ∧
      constantPropagation pool u =
      .ok (foldAncillaryField pool u producer attr offset.toNat bits.toNat start width) := by
  obtain ⟨attr, start, width, hrange, hfold⟩ := foldPackedAncillary_of_extracts h hop hpacked
  refine ⟨attr, start, width, hrange, ?_⟩
  unfold constantPropagation
  rw [h.1.opcode]
  simp only [Opcode.fold, hfold]
  rfl

/-- The new instructions read the attribute, or extract from what does. -/
theorem frozen_readField (hother : attr ≠ .packedAncillary) :
    (pool.readField attr o b start width).1.Frozen fun x =>
      pool.size ≤ x ∧ x < (pool.readField attr o b start width).1.size := by
  intro x hx
  refine ⟨hx.2, ?_⟩
  have hread {p : Pool} (hinst : p.insts x = ⟨.getAttributeU32, [.attr attr, .u32 0], []⟩) :
      ¬((p.insts x).opcode = .getAttributeU32 ∧ (p.insts x).arg 0 = .attr .packedAncillary) := by
    rw [hinst]
    exact fun h => hother (Value.attr.inj h.2)
  unfold Pool.readField at hx ⊢
  simp only at hx ⊢
  split_ifs at hx ⊢
  · obtain rfl : x = pool.size := Nat.le_antisymm (Nat.le_of_lt_succ hx.2) hx.1
    refine ⟨hread insts_create_self, fun used hmem => ?_⟩
    rw [insts_create_self] at hmem
    rcases List.mem_pair.mp hmem with h | h <;> cases h
  · rcases Nat.eq_or_lt_of_le hx.1 with rfl | hlt
    · have hne : pool.size ≠ (pool.create ⟨.getAttributeU32, [.attr attr, .u32 0], []⟩).size :=
        (Nat.lt_succ_self _).ne
      rw [insts_create_other hne]
      refine ⟨hread insts_create_self, fun used hmem => ?_⟩
      rw [insts_create_self] at hmem
      rcases List.mem_pair.mp hmem with h | h <;> cases h
    · obtain rfl : x = (pool.create ⟨.getAttributeU32, [.attr attr, .u32 0], []⟩).size :=
        Nat.le_antisymm (Nat.le_of_lt_succ hx.2) hlt
      rw [insts_create_self]
      refine ⟨nofun, fun used hmem => ?_⟩
      rcases List.mem_cons.mp hmem with h | hmem
      · obtain rfl := Value.inst.inj h
        exact ⟨le_rfl, (Nat.lt_succ_self _).trans (Nat.lt_succ_self _)⟩
      · rcases List.mem_pair.mp hmem with h | h <;> cases h

/-- After the fold of a use, the new instructions are there, and the other uses extract from
zero. -/
theorem foldAncillaryField_after {users : ℕ → Prop} (hshared : pool.Shared producer users)
    (hlt : id < pool.size) (hop : (pool.insts id).opcode = .bitFieldUExtract)
    (hother : attr ≠ .packedAncillary)
    (hfolded : folded = foldAncillaryField pool id producer attr o b start width) :
    (∀ x, pool.size ≤ x → x < (pool.readField attr o b start width).1.size →
        folded.pool.insts x = (pool.readField attr o b start width).1.insts x) ∧
      folded.pool.size = (pool.readField attr o b start width).1.size ∧
      ∀ u ≠ id, ∀ offset bits, pool.Awaits (.inst producer) u offset bits →
        folded.pool.Awaits (.u32 0) u offset bits := by
  have hproducer := hshared.lt_size
  have hne : producer ≠ id := by
    rintro rfl
    rw [hshared.opcode] at hop
    cases hop
  rw [hfolded, pool_foldAncillaryField]
  refine ⟨fun x hx hx' => ?_, rfl, fun u hne' offset bits hawaits => ?_⟩
  · have hold {y : ℕ}
      (hy : y < pool.size) : .inst y ∉ ((pool.readField attr o b start width).1.insts x).args :=
      fun hmem => absurd ((frozen_readField hother x ⟨hx, hx'⟩).2.2 y hmem).1 (Nat.not_le_of_lt hy)
    have hfirst : ((pool.readField attr o b start width).1.replaceUsesWithAndRemove id
        (.inst (pool.readField attr o b start width).2)).insts x =
          (pool.readField attr o b start width).1.insts x :=
      insts_replace_of_not_mem (hlt.trans_le hx).ne' (hold hlt)
    rw [insts_replace_of_not_mem (hproducer.trans_le hx).ne', hfirst]
    rw [hfirst]
    exact hold hproducer
  · have hmade : (pool.readField attr o b start width).1.Awaits (.inst producer) u offset bits := by
      refine hawaits.readField hshared.created fun used heq => ?_
      obtain rfl := Value.inst.inj heq
      exact ⟨by rw [hshared.opcode]; exact nofun, hproducer⟩
    have hopcode : ((pool.readField attr o b start width).1.insts id).opcode ≠ .identity := by
      rw [readField_insts hlt, hop]
      exact nofun
    refine (hmade.replace hne' hopcode fun heq => hne (Value.inst.inj heq)).replace_base ?_ ?_
    · rintro rfl
      have hop' := hawaits.opcode
      rw [hshared.opcode] at hop'
      cases hop'
    · rw [opcode_replace_or hne, readField_insts hproducer, hshared.opcode]
      exact nofun

/-! ### Runs -/

theorem propagateInsts_cons_iff : propagateInsts (id :: rest) pool = .ok (pool', insts, log) ↔
    ∃ folded insts' log', constantPropagation pool id = .ok folded ∧
      propagateInsts rest folded.pool = .ok (pool', insts', log') ∧
        insts = folded.fresh ++ id :: insts' ∧
      log = folded.replacement.toList.map (id, ·) ++ log' := by
  rw [propagateInsts]
  constructor
  · intro h
    obtain ⟨folded, hstep, h⟩ := bind_ok h
    obtain ⟨result, hrest, h⟩ := bind_ok h
    cases h
    exact ⟨folded, _, _, hstep, hrest, rfl, rfl⟩
  · rintro ⟨folded, insts', log', hstep, hrest, rfl, rfl⟩
    rw [hstep]
    simp only [bind, Except.bind, hrest]
    rfl

theorem propagateBlocks_cons_iff :
    propagateBlocks (ids :: blocks) pool = .ok (pool', blocks', log) ↔
    ∃ inner insts blocks'' log₁ log₂, propagateInsts ids pool = .ok (inner, insts, log₁) ∧
      propagateBlocks blocks inner = .ok (pool', blocks'', log₂) ∧ blocks' = insts :: blocks'' ∧
        log = log₁ ++ log₂ := by
  rw [propagateBlocks]
  constructor
  · intro h
    obtain ⟨result, hinsts, h⟩ := bind_ok h
    obtain ⟨result', hblocks, h⟩ := bind_ok h
    cases h
    exact ⟨_, _, _, _, _, hinsts, hblocks, rfl, rfl⟩
  · rintro ⟨inner, insts, blocks'', log₁, log₂, hinsts, hblocks, rfl, rfl⟩
    rw [hinsts]
    simp only [bind, Except.bind, hblocks]
    rfl

theorem Pool.Frozen.run {kept : ℕ → Prop} (h : pool.Frozen kept) (hids : ∀ id ∈ ids, ¬kept id)
    (hok : propagateInsts ids pool = .ok (pool', insts, log)) :
    ∀ x, kept x → pool'.insts x = pool.insts x := by
  induction ids generalizing pool insts log with
  | nil =>
    cases hok
    exact fun _ _ => rfl
  | cons id ids ih =>
    obtain ⟨folded, insts', log', hstep, hrest, -⟩ := propagateInsts_cons_iff.mp hok
    obtain ⟨hsize, hsame⟩ :=
      h.visited (hids id List.mem_cons_self) (constantPropagation_visited hstep)
    have hfrozen : folded.pool.Frozen kept := by
      intro x hx
      rw [hsame x hx]
      exact ⟨(h x hx).1.trans_le hsize, (h x hx).2⟩
    intro x hx
    exact (ih hfrozen (fun y hy => hids y (List.mem_cons_of_mem _ hy)) hrest x hx).trans
      (hsame x hx)

theorem mem_of_mem_log (hok : propagateInsts ids pool = .ok (pool', insts, log))
    (h : (u, v) ∈ log) : u ∈ ids := by
  induction ids generalizing pool insts log with
  | nil =>
    cases hok
    cases h
  | cons id ids ih =>
    obtain ⟨folded, insts', log', hstep, hrest, -, rfl⟩ := propagateInsts_cons_iff.mp hok
    rcases List.mem_append.mp h with h | h
    · obtain ⟨w, -, heq⟩ := List.mem_map.mp h
      cases heq
      exact List.mem_cons_self
    · exact List.mem_cons_of_mem _ (ih hrest h)

theorem mem_log_tail {replacement : Option Value} (hne : u ≠ id) :
    (u, v) ∈ replacement.toList.map (id, ·) ++ log' ↔ (u, v) ∈ log' := by
  rw [List.mem_append]
  refine ⟨fun h => h.resolve_left fun h => ?_, .inr⟩
  obtain ⟨w, -, heq⟩ := List.mem_map.mp h
  exact hne (congrArg Prod.fst heq).symm

theorem size_le_of_visited (h : Visited pool id folded) : pool.size ≤ folded.pool.size := by
  have hfrozen : pool.Frozen fun _ => False := fun _ h => h.elim
  exact (hfrozen.visited not_false h).1

theorem constantPropagation_of_zero (h : pool.Awaits (.u32 0) u offset bits)
    (hfield : InField offset.toNat bits.toNat) :
    constantPropagation pool u = .ok (.remove pool u (.u32 0)) := by
  obtain ⟨a, b, c, hargs, ha, hb, hc⟩ := h.args
  have harg0 : (pool.insts u).arg 0 = a := by rw [Inst.arg, hargs]; rfl
  have hsum : offset.toNat + bits.toNat ≤ 27 := by rcases hfield with h | h <;> omega
  have hpacked : foldPackedAncillary pool u = .ok none := by
    unfold foldPackedAncillary
    simp only [harg0, ha]
  have himm : (pool.insts u).args.all pool.isImmediate = true := by
    rw [hargs]
    simp [Pool.isImmediate, ha, hb, hc]
  have hzero : foldBitFieldUExtract 0 offset bits = .ok 0 := by
    have hshift : (0 : BitVec 32) >>> offset.toNat = 0 := BitVec.zero_ushiftRight
    rw [foldBitFieldUExtract, if_neg (by omega), if_neg (by omega), hshift]
    exact congrArg Except.ok BitVec.zero_and
  have heval : evalImmediates .bitFieldUExtract [.u32 0, .u32 offset, .u32 bits] =
    .ok (.u32 0) := by
    change Value.u32 <$> foldBitFieldUExtract 0 offset bits = _
    rw [hzero]
    rfl
  have hwhen : foldWhenAllImmediates pool u = .ok (.remove pool u (.u32 0)) := by
    unfold foldWhenAllImmediates
    simp only [if_pos himm]
    simp only [h.opcode, hargs, List.map_cons, List.map_nil, ha, hb, hc, heval]
    rfl
  unfold constantPropagation
  rw [h.opcode]
  simp only [Opcode.fold, hpacked]
  exact hwhen

theorem zero_of_awaits (hcreated : ∀ id, pool.size ≤ id → (pool.insts id).opcode = .void)
    (hnodup : ids.Nodup)
    (hlt : ∀ id ∈ ids, id < pool.size) (hu : u ∈ ids) (h : pool.Awaits (.u32 0) u offset bits)
    (hfield : InField offset.toNat bits.toNat)
    (hok : propagateInsts ids pool = .ok (pool', insts, log)) :
    (u, v) ∈ log ↔ v = .u32 0 := by
  induction ids generalizing pool insts log with
  | nil => cases hu
  | cons id ids ih =>
    obtain ⟨folded, insts', log', hstep, hrest, -, rfl⟩ := propagateInsts_cons_iff.mp hok
    obtain ⟨hnot, hnodup⟩ := List.nodup_cons.mp hnodup
    rcases List.mem_cons.mp hu with rfl | hu
    · cases (constantPropagation_of_zero h hfield).symm.trans hstep
      constructor
      · intro hmem
        rcases List.mem_append.mp hmem with hmem | hmem
        · cases List.mem_singleton.mp hmem
          rfl
        · exact absurd (mem_of_mem_log hrest hmem) hnot
      · rintro rfl
        exact List.mem_append_left _ (List.mem_singleton.mpr rfl)
    · have hne : u ≠ id := fun heq => hnot (heq ▸ hu)
      have hvisited := constantPropagation_visited hstep
      rw [mem_log_tail hne]
      exact ih (created_visited hcreated hvisited) hnodup
        (fun x hx => (hlt x (List.mem_cons_of_mem _ hx)).trans_le (size_le_of_visited hvisited)) hu
        (h.visited hcreated hne (hlt id List.mem_cons_self) nofun hvisited) hrest

/-- What a run does to the uses of the register: the first one gets its field, the others zero. -/
theorem uses_of_run {use : ℕ → BitVec 32 → BitVec 32 → Prop}
    (hshared : pool.Shared producer fun u => ∃ offset bits, use u offset bits)
    (hfield : ∀ u offset bits, use u offset bits → InField offset.toNat bits.toNat)
    (hnodup : ids.Nodup)
    (hlt : ∀ id ∈ ids, id < pool.size)
    (hawaits : ∀ u ∈ ids, ∀ offset bits, use u offset bits →
      pool.Awaits (.inst producer) u offset bits)
    (hok : propagateInsts ids pool = .ok (pool', insts, log)) {pre post : List ℕ}
    (hids : ids = pre ++ u :: post)
    (huse : use u offset bits) : ((∀ w ∈ pre, ∀ offset bits, ¬use w offset bits) →
        ∃ v, (u, v) ∈ log ∧ ∀ anc, pool'.Yields anc v (.u32 (anc.field offset.toNat bits.toNat))) ∧
      ((∃ w ∈ pre, ∃ offset bits, use w offset bits) → ∀ v, (u, v) ∈ log ↔ v = .u32 0) := by
  induction ids generalizing pool insts log pre with
  | nil => cases pre <;> cases hids
  | cons id ids ih =>
    obtain ⟨folded, insts', log', hstep, hrest, -, rfl⟩ := propagateInsts_cons_iff.mp hok
    obtain ⟨hnot, hnodup⟩ := List.nodup_cons.mp hnodup
    have hvisited := constantPropagation_visited hstep
    have hidlt := hlt id List.mem_cons_self
    have hlt' : ∀ x ∈ ids, x < folded.pool.size :=
      fun x hx => (hlt x (List.mem_cons_of_mem _ hx)).trans_le (size_le_of_visited hvisited)
    cases pre with
    | nil =>
      obtain ⟨rfl, rfl⟩ := List.cons.inj hids
      have hextracts := hawaits id List.mem_cons_self offset bits huse
      obtain ⟨attr, start, width, hrange, hfold⟩ := constantPropagation_of_extracts
        ⟨hextracts, hfield id offset bits huse⟩ hshared.opcode hshared.packed
      have hother : attr ≠ .packedAncillary := by cases hrange <;> exact nofun
      have hfolded := Except.ok.inj (hstep.symm.trans hfold)
      obtain ⟨hsame, hsize, -⟩ :=
        foldAncillaryField_after hshared hidlt hextracts.opcode hother hfolded
      refine ⟨fun _ => ⟨.inst (pool.readField attr offset.toNat bits.toNat start width).2,
        List.mem_append_left _ (List.mem_map.mpr ⟨_, ?_, rfl⟩), fun anc => ?_⟩, fun h => ?_⟩
      · rw [hfolded, replacement_foldAncillaryField]
        exact List.mem_singleton.mpr rfl
      · refine yields_readField hrange fun x hx hx' => ?_
        have hfrozen : folded.pool.Frozen fun x =>
            pool.size ≤ x ∧
              x < (pool.readField attr offset.toNat bits.toNat start width).1.size := by
          intro y hy
          rw [hsame y hy.1 hy.2, hsize]
          exact frozen_readField hother y hy
        refine (hfrozen.run (fun y hy hk => ?_) hrest x ⟨hx, hx'⟩).trans (hsame x hx hx')
        exact absurd (hlt y (List.mem_cons_of_mem _ hy)) (Nat.not_lt_of_le hk.1)
      · obtain ⟨w, hw, -⟩ := h
        cases hw
    | cons w pre =>
      obtain ⟨rfl, rfl⟩ := List.cons.inj hids
      have hu : u ∈ pre ++ u :: post := List.mem_append_right _ List.mem_cons_self
      have hne : u ≠ id := fun heq => hnot (heq ▸ hu)
      have huawaits := hawaits u (List.mem_cons_of_mem _ hu) offset bits huse
      simp only [mem_log_tail hne]
      by_cases hid : ∃ offset bits, use id offset bits
      · obtain ⟨offset', bits', huse'⟩ := hid
        have hextracts := hawaits id List.mem_cons_self offset' bits' huse'
        obtain ⟨attr, start, width, hrange, hfold⟩ := constantPropagation_of_extracts
          ⟨hextracts, hfield id offset' bits' huse'⟩ hshared.opcode hshared.packed
        have hother : attr ≠ .packedAncillary := by cases hrange <;> exact nofun
        have hfolded := Except.ok.inj (hstep.symm.trans hfold)
        obtain ⟨-, -, hzero⟩ :=
          foldAncillaryField_after hshared hidlt hextracts.opcode hother hfolded
        refine ⟨fun h => absurd huse' (h id List.mem_cons_self _ _), fun _ v => ?_⟩
        exact zero_of_awaits (created_visited hshared.created hvisited) hnodup hlt' hu
          (hzero u hne offset bits huawaits) (hfield u offset bits huse) hrest
      · have hbase (used : ℕ) (heq : Value.inst producer = .inst used) :
          (pool.insts used).opcode.fold = .nothing ∧
            (pool.insts used).opcode ≠ .identity ∧ used < pool.size ∧
              ((pool.insts id).opcode = .bitFieldUExtract →
                pool.resolve ((pool.insts id).arg 0) ≠ .inst used) := by
          obtain rfl := Value.inst.inj heq
          rw [hshared.opcode]
          exact ⟨rfl, nofun, hshared.lt_size,
            fun hop => hshared.base_ne hid (by rw [hop]; exact nofun)⟩
        have hawaits' : ∀ x ∈ pre ++ u :: post, ∀ offset bits, use x offset bits →
            folded.pool.Awaits (.inst producer) x offset bits := by
          intro x hx offset bits huse
          have hne' : x ≠ id := by
            rintro rfl
            exact hnot hx
          exact (hawaits x (List.mem_cons_of_mem _ hx) offset bits huse).visited hshared.created
            hne' hidlt hbase hvisited
        obtain ⟨hfirst, hrest'⟩ :=
          ih (hshared.visited hid hidlt hvisited) hnodup hlt' hawaits' hrest rfl
        refine ⟨fun h => hfirst fun x hx => h x (List.mem_cons_of_mem _ hx), ?_⟩
        rintro ⟨x, hx, offset', bits', huse'⟩
        rcases List.mem_cons.mp hx with rfl | hx
        · exact absurd ⟨offset', bits', huse'⟩ hid
        · exact hrest' ⟨x, hx, offset', bits', huse'⟩

/-! ### The pass -/

theorem propagateInsts_append {rest insts' : List ℕ} {pool'' : Pool}
    (h : propagateInsts ids pool = .ok (pool', insts, log))
    (h' : propagateInsts rest pool' = .ok (pool'', insts', log')) :
    ∃ insts'', propagateInsts (ids ++ rest) pool = .ok (pool'', insts'', log ++ log') := by
  induction ids generalizing pool insts log with
  | nil =>
    cases h
    exact ⟨insts', h'⟩
  | cons id ids ih =>
    obtain ⟨folded, insts₁, log₁, hstep, hrest, -, rfl⟩ := propagateInsts_cons_iff.mp h
    obtain ⟨insts₂, hok⟩ := ih hrest
    exact ⟨_,
      propagateInsts_cons_iff.mpr ⟨folded, insts₂, _, hstep, hok, rfl, List.append_assoc _ _ _⟩⟩

theorem propagateInsts_of_blocks {blocks blocks' : List (List ℕ)}
    (h : propagateBlocks blocks pool = .ok (pool', blocks', log)) :
    ∃ insts, propagateInsts blocks.flatten pool = .ok (pool', insts, log) := by
  induction blocks generalizing pool blocks' log with
  | nil =>
    cases h
    exact ⟨[], rfl⟩
  | cons ids blocks ih =>
    obtain ⟨inner, insts, blocks'', log₁, log₂, hinsts, hblocks, -, rfl⟩ :=
      propagateBlocks_cons_iff.mp h
    obtain ⟨insts', hrest⟩ := ih hblocks
    exact propagateInsts_append hinsts hrest

theorem bitFieldUExtract_allOnes_ne {offset bits : ℕ} (hw : w ≤ 32) (hlt : offset < w)
    (hpos : 0 < bits) :
    bitFieldUExtract ((BitVec.allOnes w).setWidth 32) offset bits ≠ 0 := by
  intro h
  have hlt' : offset < 32 := by omega
  have hbit := congrArg (fun word => word.getLsbD 0) h
  simp [bitFieldUExtract, hlt, hlt', hpos] at hbit

theorem eq_zero_of_field {offset bits : ℕ} (hfield : InField offset bits)
    (h : ∀ anc : Ancillary, anc.field offset bits = 0) : bits = 0 := by
  by_contra hne
  have hpos : 0 < bits := Nat.pos_of_ne_zero hne
  have hzero := h ⟨BitVec.allOnes 4, BitVec.allOnes 11⟩
  unfold Ancillary.field at hzero
  split_ifs at hzero with hlow
  · exact bitFieldUExtract_allOnes_ne (by decide) (by rcases hfield with hfield | hfield <;>
      omega) hpos hzero
  · exact bitFieldUExtract_allOnes_ne (by decide) (by rcases hfield with hfield | hfield <;>
      omega) hpos hzero

/-- A program in which the packed ancillary register is read once and used only by extractions of
its fields. -/
structure ReadsAncillary (program : List (List ℕ)) (pool : Pool) (producer : ℕ) : Prop where
  nodup : program.flatten.Nodup
  created : ∀ id ∈ program.flatten, id < pool.size
  rest : ∀ id, pool.size ≤ id → (pool.insts id).opcode = .void
  opcode : (pool.insts producer).opcode = .getAttributeU32
  packed : (pool.insts producer).arg 0 = .attr .packedAncillary
  uses : ∀ user v, (pool.insts user).opcode ≠ .identity → v ∈ (pool.insts user).args →
    pool.Reaches producer v → ∃ offset bits, pool.Extracts producer user offset bits

/-- Every use is replaced by the bits of its range. -/
def UsesKept (program : List (List ℕ)) (pool : Pool) (producer : ℕ) (pool' : Pool)
    (log : List (ℕ × Value)) : Prop :=
  ∀ u ∈ program.flatten, ∀ offset bits, pool.Extracts producer u offset bits →
    ∃ v, (u, v) ∈ log ∧ ∀ anc, pool'.Yields anc v (.u32 (anc.field offset.toNat bits.toNat))

theorem yields_zero_iff {d : Datum} : pool.Yields anc (.u32 0) d ↔ d = .u32 0 := by
  constructor
  · rintro ⟨bound, h⟩
    cases bound <;> exact (Option.some.inj h).symm
  · rintro rfl
    exact ⟨0, rfl⟩

/-- The uses are kept exactly if those that the pass visits after another one have an empty
range. -/
theorem usesKept_iff {program blocks : List (List ℕ)} (h : ReadsAncillary program pool producer)
    (hok : constantPropagationPass program pool = .ok (pool', blocks, log)) :
    UsesKept program pool producer pool' log ↔
      ∀ pre u post, program.reverse.flatten = pre ++ u :: post →
        (∃ w ∈ pre, ∃ offset bits, pool.Extracts producer w offset bits) →
          ∀ offset bits, pool.Extracts producer u offset bits → bits = 0 := by
  have hmem (id : ℕ) : id ∈ program.reverse.flatten ↔ id ∈ program.flatten := by
    simp only [List.mem_flatten, List.mem_reverse]
  have hshared : pool.Shared producer fun u => ∃ offset bits,
    pool.Extracts producer u offset bits := by
    refine ⟨h.rest, h.opcode, h.packed, fun user v hop hv hreach => ?_⟩
    obtain ⟨offset, bits, hextracts⟩ := h.uses user v hop hv hreach
    exact ⟨⟨offset, bits, hextracts⟩, hextracts.1.opcode⟩
  have hnodup : program.reverse.flatten.Nodup :=
    ((List.reverse_perm program).flatten.nodup_iff).mpr h.nodup
  obtain ⟨insts, hrun⟩ : ∃ insts,
    propagateInsts program.reverse.flatten pool = .ok (pool', insts, log) := by
    unfold constantPropagationPass at hok
    cases hblocks : propagateBlocks program.reverse pool with
    | error abort =>
      rw [hblocks] at hok
      cases hok
    | ok result =>
      rw [hblocks] at hok
      cases hok
      exact propagateInsts_of_blocks hblocks
  have huses {pre post : List ℕ} {u : ℕ} {offset bits : BitVec 32}
    (hids : program.reverse.flatten = pre ++ u :: post)
      (huse : pool.Extracts producer u offset bits) :=
    uses_of_run hshared (fun _ _ _ huse => huse.2) hnodup (fun id hid =>
      h.created id ((hmem id).mp hid))
      (fun _ _ _ _ huse => huse.1) hrun hids huse
  constructor
  · intro hkept pre u post hids hother offset bits huse
    have hu : u ∈ program.flatten := by
      rw [← hmem, hids]
      exact List.mem_append_right _ List.mem_cons_self
    obtain ⟨v, hv, hyields⟩ := hkept u hu offset bits huse
    obtain rfl := ((huses hids huse).2 hother v).mp hv
    have hzero := eq_zero_of_field huse.2 fun anc =>
      Datum.u32.inj (yields_zero_iff.mp (hyields anc))
    exact BitVec.eq_of_toNat_eq hzero
  · intro hempty u hu offset bits huse
    obtain ⟨pre, post, hids⟩ := List.append_of_mem ((hmem u).mpr hu)
    by_cases hother : ∃ w ∈ pre, ∃ offset bits, pool.Extracts producer w offset bits
    · refine ⟨.u32 0, ((huses hids huse).2 hother _).mpr rfl, fun anc => yields_zero_iff.mpr ?_⟩
      obtain rfl := hempty pre u post hids hother offset bits huse
      have hfield : anc.field offset.toNat 0 = 0 := by
        simp [Ancillary.field, bitFieldUExtract]
      exact congrArg Datum.u32 hfield
    · exact (huses hids huse).1 fun w hw offset bits huse => hother ⟨w, hw, offset, bits, huse⟩

/-- One read of the register, and extractions of ranges from it. -/
def extractions (ranges : List (BitVec 32 × BitVec 32)) : Pool where
  insts
    | 0 => ⟨.getAttributeU32, [.attr .packedAncillary, .u32 0], []⟩
    | k + 1 =>
      match ranges[k]? with
      | some (offset, bits) => ⟨.bitFieldUExtract, [.inst 0, .u32 offset, .u32 bits], []⟩
      | none => ⟨.void, [], []⟩
  size := ranges.length + 1

section Extractions

variable {ranges : List (BitVec 32 × BitVec 32)} {k : ℕ}

theorem insts_extractions (h : ranges[k]? = some (offset, bits)) :
    (extractions ranges).insts (k + 1) = ⟨.bitFieldUExtract, [.inst 0, .u32 offset, .u32 bits],
      []⟩ := by
  simp only [extractions, h]

theorem extracts_extractions (h : ranges[k]? = some (offset, bits))
    (hfield : InField offset.toNat bits.toNat) :
    (extractions ranges).Extracts 0 (k + 1) offset bits := by
  have hinst := insts_extractions h
  refine ⟨⟨by rw [hinst], _, _, _, by rw [hinst], ?_, ?_, ?_⟩, hfield⟩
  · exact resolveWithin_inst nofun
  · exact resolveWithin_immediate nofun
  · exact resolveWithin_immediate nofun

theorem readsAncillary_extractions (h : ∀ range ∈ ranges, InField range.1.toNat range.2.toNat) :
    ReadsAncillary [List.range (ranges.length + 1)] (extractions ranges) 0 := by
  have hflat : [List.range (ranges.length + 1)].flatten = List.range (ranges.length + 1) :=
    List.append_nil _
  refine ⟨by rw [hflat]; exact List.nodup_range, fun id hid => ?_, fun id hid => ?_, rfl, rfl,
    fun user v hop hv hreach => ?_⟩
  · rw [hflat] at hid
    exact List.mem_range.mp hid
  · cases id with
    | zero => exact absurd hid (Nat.not_succ_le_zero _)
    | succ k =>
      have hnone : ranges[k]? = none := List.getElem?_eq_none (Nat.le_of_succ_le_succ hid)
      simp only [extractions, hnone]
  · cases user with
    | zero =>
      rcases List.mem_pair.mp hv with rfl | rfl <;>
        exact absurd hreach (Pool.Reaches.not_of_immediate nofun)
    | succ k =>
      cases hk : ranges[k]? with
      | none =>
        simp only [extractions, hk] at hv
        cases hv
      | some range => exact ⟨_, _, extracts_extractions hk (h range (List.mem_of_getElem? hk))⟩

end Extractions

/-- A single use of the register reads its field. -/
theorem usesKept_sampleIndex : ∃ pool' blocks log,
    constantPropagationPass [[0, 1]] (extractions [(8, 4)]) = .ok (pool', blocks, log) ∧
      UsesKept [[0, 1]] (extractions [(8, 4)]) 0 pool' log := by
  have hfields : ∀ range ∈ [((8 : BitVec 32), (4 : BitVec 32))],
    InField range.1.toNat range.2.toNat := by
    intro range hrange
    obtain rfl := List.mem_singleton.mp hrange
    exact .inl ⟨by decide, by decide⟩
  have hreads : ReadsAncillary [[0, 1]] (extractions [(8, 4)]) 0 :=
    readsAncillary_extractions hfields
  refine ⟨_, _, _, rfl, (usesKept_iff hreads rfl).mpr fun pre u post hids hother => ?_⟩
  obtain ⟨w, hw, _, _, hextracts⟩ := hother
  rcases pre with - | ⟨a, - | ⟨b, pre⟩⟩
  · cases hw
  · obtain rfl := List.mem_singleton.mp hw
    obtain ⟨rfl, -⟩ := List.cons.inj hids
    cases hextracts.1.opcode
  · have hlength := congrArg List.length hids
    simp at hlength

/-- The render target index reads zero once the sample index is folded. -/
theorem not_usesKept_of_sampleIndex : ¬∀ (program blocks : List (List ℕ)) (pool pool' : Pool)
    (producer : ℕ) (log : List (ℕ × Value)), ReadsAncillary program pool producer →
      constantPropagationPass program pool = .ok (pool', blocks, log) →
        UsesKept program pool producer pool' log := by
  intro h
  have hfields : ∀ range ∈ [((8 : BitVec 32), (4 : BitVec 32)), (16, 11)],
    InField range.1.toNat range.2.toNat := by
    intro range hrange
    rcases List.mem_pair.mp hrange with rfl | rfl
    · exact .inl ⟨by decide, by decide⟩
    · exact .inr ⟨by decide, by decide⟩
  have hextracts :=
    @extracts_extractions 16 11 [(8, 4), (16, 11)] 1 rfl (.inr ⟨by decide, by decide⟩)
  obtain ⟨v, hv, hyields⟩ :=
    h [[0, 1, 2]] _ _ _ 0 _ (readsAncillary_extractions hfields) rfl 2 (by decide) 16 11 hextracts
  have hlog : (2, v) ∈ [(1, Value.inst 3), (2, Value.u32 0)] := hv
  obtain rfl : v = .u32 0 := by simpa using hlog
  exact absurd (Datum.u32.inj (yields_zero_iff.mp (hyields ⟨0, 1⟩))) (by decide)

end PS4Droid.Shader.IR
