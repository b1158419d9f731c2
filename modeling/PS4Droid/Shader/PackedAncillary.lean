import PS4Droid.Shader.Rewriting

/-!
# The packed ancillary register

Extractions of the sample index or of the render target index from the register read these
attributes instead. The first extraction that is visited also replaces the register by zero, for all
of its uses.
-/

namespace PS4Droid.Shader.IR

variable {pool : Pool} {id x u producer : ℕ} {v w r base : Value} {offset bits : BitVec 32}
  {inst : Inst} {folded : Folded}

/-- What the register packs, with the widths of its fields. -/
structure Ancillary where
  sampleIndex : BitVec 4
  renderTargetIndex : BitVec 11

def Ancillary.attribute (anc : Ancillary) : Attribute → Option Datum
  | .sampleIndex => some (.u32 (anc.sampleIndex.setWidth 32))
  | .renderTargetIndex => some (.u32 (anc.renderTargetIndex.setWidth 32))
  | _ => none

/-- The ranges inside bits 8 to 11 or 16 to 26. -/
def InField (offset bits : ℕ) : Prop :=
  8 ≤ offset ∧ offset + bits ≤ 12 ∨ 16 ≤ offset ∧ offset + bits ≤ 27

/-- The bits of such a range. -/
def Ancillary.field (anc : Ancillary) (offset bits : ℕ) : BitVec 32 :=
  if offset + bits ≤ 12 then bitFieldUExtract (anc.sampleIndex.setWidth 32) (offset - 8) bits
  else bitFieldUExtract (anc.renderTargetIndex.setWidth 32) (offset - 16) bits

/-- The datum of a value, through instructions up to a depth. -/
def Pool.evalWithin (pool : Pool) (anc : Ancillary) : ℕ → Value → Option Datum
  | 0, .inst _ => none
  | bound + 1, .inst id =>
    if (pool.insts id).opcode = .getAttributeU32 then
      match (pool.insts id).arg 0 with
      | .attr attr => anc.attribute attr
      | _ => none
    else (pool.insts id).args.mapM (evalWithin pool anc bound) >>= meaning (pool.insts id).opcode
  | _, v => some (v.datum fun _ => .void)

def Pool.Yields (pool : Pool) (anc : Ancillary) (v : Value) (d : Datum) : Prop :=
  ∃ bound, pool.evalWithin anc bound v = some d

/-- An extraction of a range from what its first argument resolves to. -/
structure Pool.Awaits (pool : Pool) (base : Value) (u : ℕ) (offset bits : BitVec 32) : Prop where
  opcode : (pool.insts u).opcode = .bitFieldUExtract
  args : ∃ a b c, (pool.insts u).args = [a, b, c] ∧ pool.resolve a = base ∧
    pool.resolve b = .u32 offset ∧ pool.resolve c = .u32 bits

/-- An extraction from the register, of a range inside a field. -/
def Pool.Extracts (pool : Pool) (producer u : ℕ) (offset bits : BitVec 32) : Prop :=
  pool.Awaits (.inst producer) u offset bits ∧ InField offset.toNat bits.toNat

/-- A pool with a read of the register that has no other uses. -/
structure Pool.Shared (pool : Pool) (producer : ℕ) (users : ℕ → Prop) : Prop where
  created : ∀ id, pool.size ≤ id → (pool.insts id).opcode = .void
  opcode : (pool.insts producer).opcode = .getAttributeU32
  packed : (pool.insts producer).arg 0 = .attr .packedAncillary
  uses : ∀ user v, (pool.insts user).opcode ≠ .identity → v ∈ (pool.insts user).args →
    pool.Reaches producer v → users user ∧ (pool.insts user).opcode = .bitFieldUExtract

/-! ### Extractions wait -/

variable {args : List Value} {users : ℕ → Prop}

theorem Pool.Awaits.withArgs (h : pool.Awaits base u offset bits) (hne : u ≠ x)
    (hx : (pool.insts x).opcode ≠ .identity) :
    (pool.withArgs x args).Awaits base u offset bits := by
  obtain ⟨a, b, c, hargs, ha, hb, hc⟩ := h.args
  refine ⟨(opcode_withArgs u).trans h.opcode, a, b, c, by rw [withArgs_other hne, hargs], ?_, ?_,
    ?_⟩
  · exact (resolveWithin_withArgs hx).trans ha
  · exact (resolveWithin_withArgs hx).trans hb
  · exact (resolveWithin_withArgs hx).trans hc

theorem resolve_replace (hx : (pool.insts x).opcode ≠ .identity) (h : pool.resolve v = w)
    (hw : w ≠ .inst x) :
    (pool.replaceUsesWithAndRemove x r).resolve (Pool.replaceIn x r v) = w := by
  have hv : v ≠ .inst x := by
    rintro rfl
    exact hw (h.symm.trans (resolveWithin_inst hx))
  rw [replaceIn_of_ne hv]
  exact (resolveWithin_replace hx fun heq => hw (h.symm.trans heq)).trans h

theorem Pool.Awaits.replace (h : pool.Awaits base u offset bits) (hne : u ≠ x)
    (hx : (pool.insts x).opcode ≠ .identity) (hbase : base ≠ .inst x) :
    (pool.replaceUsesWithAndRemove x r).Awaits base u offset bits := by
  obtain ⟨a, b, c, hargs, ha, hb, hc⟩ := h.args
  refine ⟨by rw [insts_replace_other hne]; exact h.opcode, Pool.replaceIn x r a,
    Pool.replaceIn x r b, Pool.replaceIn x r c,
    by rw [insts_replace_other hne, hargs]; rfl, ?_, ?_, ?_⟩
  · exact resolve_replace hx ha hbase
  · exact resolve_replace hx hb nofun
  · exact resolve_replace hx hc nofun

/-- Once the register is replaced by zero, the extractions are from zero. -/
theorem Pool.Awaits.replace_base (h : pool.Awaits (.inst x) u offset bits) (hne : u ≠ x)
    (hx : (pool.insts x).opcode ≠ .identity) :
    (pool.replaceUsesWithAndRemove x (.u32 0)).Awaits (.u32 0) u offset bits := by
  obtain ⟨a, b, c, hargs, ha, hb, hc⟩ := h.args
  refine ⟨by rw [insts_replace_other hne]; exact h.opcode, _, _,
    _, by rw [insts_replace_other hne, hargs]; rfl, ?_, ?_, ?_⟩
  · exact resolveWithin_replace_self nofun ha
  · exact resolve_replace hx hb nofun
  · exact resolve_replace hx hc nofun

theorem resolve_create (hsize : (pool.insts pool.size).opcode = .void) (h : pool.resolve v = w)
    (hw : ∀ used, w = .inst used → (pool.insts used).opcode ≠ .identity ∧ used ≠ pool.size) :
    (pool.create inst).resolve v = w := by
  have hold := resolveWithin_succ (fun used heq => (hw used heq).1) h
  have hne : pool.resolveWithin (pool.size + 1) v ≠ .inst pool.size := by
    rw [hold]
    exact fun heq => (hw _ heq).2 rfl
  exact (resolveWithin_create (by rw [hsize]; exact nofun) hne).trans hold

theorem Pool.Awaits.create (h : pool.Awaits base u offset bits)
    (hcreated : ∀ id, pool.size ≤ id → (pool.insts id).opcode = .void)
    (hbase : ∀ used, base = .inst used → (pool.insts used).opcode ≠ .identity ∧ used ≠ pool.size) :
    (pool.create inst).Awaits base u offset bits := by
  have hsize := hcreated pool.size le_rfl
  have hne : u ≠ pool.size := by
    rintro rfl
    rw [h.opcode] at hsize
    cases hsize
  obtain ⟨a, b, c, hargs, ha, hb, hc⟩ := h.args
  refine ⟨by rw [insts_create_other hne]; exact h.opcode, a, b,
    c, by rw [insts_create_other hne, hargs], ?_, ?_, ?_⟩
  · exact resolve_create hsize ha hbase
  · exact resolve_create hsize hb nofun
  · exact resolve_create hsize hc nofun

/-! ### The register is shared -/

theorem Pool.Shared.withArgs (h : pool.Shared producer users) (hlt : x < pool.size)
    (hx : (pool.insts x).opcode.fold ≠ .nothing) (hargs : ∀ v ∈ args, ¬pool.Reaches producer v) :
    (pool.withArgs x args).Shared producer users := by
  have hne : producer ≠ x := by
    rintro rfl
    rw [h.opcode] at hx
    exact hx rfl
  refine ⟨fun id hid => ?_, ?_, ?_, fun user v hop hv hreach => ?_⟩
  · rw [opcode_withArgs]
    exact h.created id hid
  · rw [withArgs_other hne]
    exact h.opcode
  · rw [withArgs_other hne]
    exact h.packed
  · have hreach := hreach.of_withArgs (ne_identity_of_fold hx)
    rw [opcode_withArgs] at hop ⊢
    by_cases heq : user = x
    · rw [heq, withArgs_self] at hv
      exact absurd hreach (hargs v hv)
    · rw [withArgs_other heq] at hv
      exact h.uses user v hop hv hreach

theorem Pool.Shared.replace (h : pool.Shared producer users) (hne : producer ≠ x)
    (hr : ¬pool.Reaches producer r) :
    (pool.replaceUsesWithAndRemove x r).Shared producer users := by
  have hopcode {user : ℕ} (hne : user ≠ x) :
      ((pool.replaceUsesWithAndRemove x r).insts user).opcode = (pool.insts user).opcode := by
    rw [insts_replace_other hne]
  refine ⟨fun id hid => ?_, (hopcode hne).trans h.opcode, ?_, fun user v hop hv hreach => ?_⟩
  · by_cases heq : id = x
    · rw [heq, insts_replace_self]
    · exact (hopcode heq).trans (h.created id hid)
  · rw [arg_replace_other hne, h.packed]
    rfl
  · have hreach := hreach.of_replace hr
    by_cases heq : user = x
    · rw [heq, insts_replace_self] at hv
      cases hv
    · rw [hopcode heq] at hop ⊢
      rw [insts_replace_other heq] at hv
      obtain ⟨a, ha, rfl⟩ := List.mem_map.mp hv
      exact h.uses user a hop ha (hreach.of_replaceIn hr)

theorem Pool.Shared.create (h : pool.Shared producer users) (hinst : inst.opcode ≠ .identity)
    (hargs : ∀ v ∈ inst.args, ¬pool.Reaches producer v) :
    (pool.create inst).Shared producer users := by
  have hne : producer ≠ pool.size := by
    rintro rfl
    have hvoid := h.created pool.size le_rfl
    rw [h.opcode] at hvoid
    cases hvoid
  refine ⟨fun id hid => ?_, ?_, ?_, fun user v hop hv hreach => ?_⟩
  · have hlt : pool.size < id := hid
    rw [insts_create_other hlt.ne']
    exact h.created id hlt.le
  · rw [insts_create_other hne]
    exact h.opcode
  · rw [insts_create_other hne]
    exact h.packed
  · have hreach := hreach.of_create hinst
    by_cases heq : user = pool.size
    · rw [heq, insts_create_self] at hv
      exact absurd hreach (hargs v hv)
    · rw [insts_create_other heq] at hop hv ⊢
      exact h.uses user v hop hv hreach

theorem Pool.Shared.not_reaches_of_taken (h : pool.Shared producer users) (hv : pool.Taken v) :
    ¬pool.Reaches producer v := by
  rcases hv with himm | ⟨user, hmem, hid, hextract⟩
  · exact Pool.Reaches.not_of_immediate himm
  · exact fun hreach => hextract (h.uses user v hid hmem hreach).2

/-! ### The fold of a field -/

/-- The attribute is read in front of the extraction, which is replaced, and so is the register. -/
structure FieldFolded (pool : Pool) (id producer : ℕ) (attr : Attribute)
    (offset bits start width : ℕ) (folded : Folded) :
    Prop where
  base : pool.resolve ((pool.insts id).arg 0) = .inst producer
  opcode : (pool.insts producer).opcode = .getAttributeU32
  packed : (pool.insts producer).arg 0 = .attr .packedAncillary
  other : attr ≠ .packedAncillary
  eq : folded = foldAncillaryField pool id producer attr offset bits start width

theorem foldPackedAncillary_eq_some (h : foldPackedAncillary pool id = .ok (some folded)) :
    ∃ producer attr offset bits start width,
      FieldFolded pool id producer attr offset bits start width folded := by
  unfold foldPackedAncillary at h
  simp only at h
  split at h
  · rename_i producer offset bits hbase _ _
    split_ifs at h with hpacked
    · cases h
      exact ⟨producer, .sampleIndex, _, _, _, _, hbase, hpacked.1, hpacked.2, nofun, rfl⟩
    · cases h
      exact ⟨producer, .renderTargetIndex, _, _, _, _, hbase, hpacked.1, hpacked.2, nofun, rfl⟩
    · cases h
  · cases h

section Field

variable {attr : Attribute} {offset bits start width : ℕ}

/-- The new instructions, and the last of them. -/
def Pool.readField (pool : Pool) (attr : Attribute) (offset bits start width : ℕ) : Pool × ℕ :=
  let created := pool.create ⟨.getAttributeU32, [.attr attr, .u32 0], []⟩
  if offset = start ∧ bits = width then (created, pool.size)
  else
    (created.create ⟨.bitFieldUExtract,
      [.inst pool.size, .u32 (BitVec.ofNat 32 (offset - start)), .u32 (BitVec.ofNat 32 bits)], []⟩,
        created.size)

theorem pool_foldAncillaryField :
    (foldAncillaryField pool id producer attr offset bits start width).pool =
    ((pool.readField attr offset bits start width).1.replaceUsesWithAndRemove id
      (.inst (pool.readField attr offset bits start width).2)).replaceUsesWithAndRemove producer
        (.u32 0) := by
  unfold foldAncillaryField Pool.readField
  simp only
  split_ifs <;> rfl

theorem replacement_foldAncillaryField :
    (foldAncillaryField pool id producer attr offset bits start width).replacement =
    some (.inst (pool.readField attr offset bits start width).2) := by
  unfold foldAncillaryField Pool.readField
  simp only
  split_ifs <;> rfl

theorem readField_insts (hlt : x < pool.size) :
    (pool.readField attr offset bits start width).1.insts x = pool.insts x := by
  unfold Pool.readField
  simp only
  split_ifs
  · exact insts_create_other hlt.ne
  · exact (insts_create_other (hlt.trans (Nat.lt_succ_self _)).ne).trans (insts_create_other hlt.ne)

theorem readField_last : pool.size ≤ (pool.readField attr offset bits start width).2 ∧
    ((pool.readField attr offset bits start width).1.insts
      (pool.readField attr offset bits start width).2).opcode ≠ .identity := by
  unfold Pool.readField
  simp only
  split_ifs
  · refine ⟨le_rfl, ?_⟩
    rw [insts_create_self]
    exact nofun
  · refine ⟨Nat.le_succ _, ?_⟩
    rw [insts_create_self]
    exact nofun

theorem created_create (hcreated : ∀ id, pool.size ≤ id → (pool.insts id).opcode = .void) :
    ∀ id, (pool.create inst).size ≤ id → ((pool.create inst).insts id).opcode = .void := by
  intro id hid
  have hlt : pool.size < id := hid
  rw [insts_create_other hlt.ne']
  exact hcreated id hlt.le

theorem readField_created (hcreated : ∀ id, pool.size ≤ id → (pool.insts id).opcode = .void) :
    ∀ id, (pool.readField attr offset bits start width).1.size ≤ id →
      ((pool.readField attr offset bits start width).1.insts id).opcode = .void := by
  unfold Pool.readField
  simp only
  split_ifs
  · exact created_create hcreated
  · exact created_create (created_create hcreated)

theorem Pool.Awaits.readField {offset' bits' : BitVec 32} (h : pool.Awaits base u offset' bits')
    (hcreated : ∀ id, pool.size ≤ id → (pool.insts id).opcode = .void)
    (hbase : ∀ used, base = .inst used → (pool.insts used).opcode ≠ .identity ∧ used < pool.size) :
    (pool.readField attr offset bits start width).1.Awaits base u offset' bits' := by
  have hfirst :
    (pool.create ⟨.getAttributeU32, [.attr attr, .u32 0], []⟩).Awaits base u offset' bits' :=
    h.create hcreated fun used heq => ⟨(hbase used heq).1, (hbase used heq).2.ne⟩
  unfold Pool.readField
  simp only
  split_ifs
  · exact hfirst
  · refine hfirst.create (created_create hcreated) fun used heq => ?_
    obtain ⟨hop, hlt⟩ := hbase used heq
    rw [insts_create_other hlt.ne]
    exact ⟨hop, (hlt.trans (Nat.lt_succ_self _)).ne⟩

theorem not_reaches_inst (hop : (pool.insts x).opcode ≠ .identity) (hne : x ≠ producer) :
    ¬pool.Reaches producer (.inst x) := by
  intro h
  cases h with
  | here => exact hne rfl
  | through hop' _ => exact hop hop'

variable {users : ℕ → Prop}

theorem Pool.Shared.lt_size (h : pool.Shared producer users) : producer < pool.size := by
  by_contra hle
  have hvoid := h.created producer (Nat.le_of_not_lt hle)
  rw [h.opcode] at hvoid
  cases hvoid

theorem Pool.Shared.readField (h : pool.Shared producer users) :
    (pool.readField attr offset bits start width).1.Shared producer users := by
  have hfirst : (pool.create ⟨.getAttributeU32, [.attr attr, .u32 0], []⟩).Shared producer users :=
    h.create nofun fun v hv => by
      rcases List.mem_pair.mp hv with rfl | rfl <;> exact Pool.Reaches.not_of_immediate nofun
  unfold Pool.readField
  simp only
  split_ifs
  · exact hfirst
  · refine hfirst.create nofun fun v hv => ?_
    rcases List.mem_cons.mp hv with rfl | hv
    · refine not_reaches_inst ?_ h.lt_size.ne'
      rw [insts_create_self]
      exact nofun
    · rcases List.mem_pair.mp hv with rfl | rfl <;> exact Pool.Reaches.not_of_immediate nofun

end Field

/-! ### Visits of other instructions -/

theorem opcode_replace_or (hne : id ≠ x) :
    ((pool.replaceUsesWithAndRemove x r).insts id).opcode = (pool.insts id).opcode := by
  rw [insts_replace_other hne]

theorem created_replace (hcreated : ∀ id, pool.size ≤ id → (pool.insts id).opcode = .void) :
    ∀ id, (pool.replaceUsesWithAndRemove x r).size ≤ id →
      ((pool.replaceUsesWithAndRemove x r).insts id).opcode = .void := by
  intro id hid
  by_cases heq : id = x
  · rw [heq, insts_replace_self]
  · exact (opcode_replace_or heq).trans (hcreated id hid)

theorem created_visited (hcreated : ∀ id, pool.size ≤ id → (pool.insts id).opcode = .void)
    (hvisited : Visited pool id folded) :
    ∀ x, folded.pool.size ≤ x → (folded.pool.insts x).opcode = .void := by
  cases hvisited with
  | unchanged => exact hcreated
  | args args hfold _ =>
    intro x hx
    exact (opcode_withArgs x).trans (hcreated x hx)
  | replace v hfold _ => exact created_replace hcreated
  | field _ _ hok =>
    obtain ⟨producer, attr, offset, bits, start, width, hfield⟩ := foldPackedAncillary_eq_some hok
    rw [hfield.eq, pool_foldAncillaryField]
    exact created_replace (created_replace (readField_created hcreated))

/-- An extraction goes on waiting if the visited instruction neither is nor extracts from what it
waits for. -/
theorem Pool.Awaits.visited (h : pool.Awaits base u offset bits)
    (hcreated : ∀ id, pool.size ≤ id → (pool.insts id).opcode = .void) (hne : u ≠ id)
    (hlt : id < pool.size)
    (hbase : ∀ used, base = .inst used → (pool.insts used).opcode.fold = .nothing ∧
      (pool.insts used).opcode ≠ .identity ∧ used < pool.size ∧
      ((pool.insts id).opcode = .bitFieldUExtract →
        pool.resolve ((pool.insts id).arg 0) ≠ .inst used))
    (hvisited : Visited pool id folded) : folded.pool.Awaits base u offset bits := by
  have hself (hfold : (pool.insts id).opcode.fold ≠ .nothing) : base ≠ .inst id :=
    fun heq => hfold (hbase id heq).1
  cases hvisited with
  | unchanged => exact h
  | args args hfold _ => exact h.withArgs hne (ne_identity_of_fold hfold)
  | replace v hfold _ => exact h.replace hne (ne_identity_of_fold hfold) (hself hfold)
  | field _ hop hok =>
    obtain ⟨producer, attr, offset', bits', start, width, hfield⟩ := foldPackedAncillary_eq_some hok
    have hproducer : producer < pool.size := by
      by_contra hle
      have hvoid := hcreated producer (Nat.le_of_not_lt hle)
      rw [hfield.opcode] at hvoid
      cases hvoid
    have hmade : (pool.readField attr offset' bits' start width).1.Awaits base u _ _ :=
      h.readField hcreated fun used heq => ⟨(hbase used heq).2.1, (hbase used heq).2.2.1⟩
    have hfold : (pool.insts id).opcode.fold ≠ .nothing := by rw [hop]; exact nofun
    have hne' : producer ≠ id := by
      rintro rfl
      rw [hfield.opcode] at hop
      cases hop
    have hne'' : u ≠ producer := by
      rintro rfl
      have hop' := h.opcode
      rw [hfield.opcode] at hop'
      cases hop'
    rw [hfield.eq, pool_foldAncillaryField]
    refine (hmade.replace hne ?_ (hself hfold)).replace hne'' ?_ fun heq => ?_
    · rw [readField_insts hlt, hop]
      exact nofun
    · rw [opcode_replace_or hne', readField_insts hproducer, hfield.opcode]
      exact nofun
    · exact (hbase producer heq).2.2.2 hop hfield.base

theorem Pool.Shared.base_ne (h : pool.Shared producer users) (hid : ¬users id)
    (hop : (pool.insts id).opcode ≠ .identity) :
    pool.resolve ((pool.insts id).arg 0) ≠ .inst producer := by
  intro hresolve
  have hreach : pool.Reaches producer ((pool.insts id).arg 0) := reaches_of_resolveWithin hresolve
  rw [Inst.arg, List.getD_eq_getElem?_getD] at hreach
  cases hget : (pool.insts id).args[0]? with
  | none =>
    rw [hget] at hreach
    cases hreach
  | some v =>
    rw [hget] at hreach
    exact hid (h.uses id v hop (List.mem_of_getElem? hget) hreach).1

theorem Pool.Shared.visited (h : pool.Shared producer users) (hid : ¬users id)
    (hlt : id < pool.size)
    (hvisited : Visited pool id folded) : folded.pool.Shared producer users := by
  have hself (hfold : (pool.insts id).opcode.fold ≠ .nothing) : producer ≠ id := by
    rintro rfl
    rw [h.opcode] at hfold
    exact hfold rfl
  cases hvisited with
  | unchanged => exact h
  | args args hfold htaken =>
    exact h.withArgs hlt hfold fun v hv => h.not_reaches_of_taken (htaken v hv)
  | replace v hfold htaken => exact h.replace (hself hfold) (h.not_reaches_of_taken htaken)
  | field _ hop hok =>
    obtain ⟨producer', attr, offset, bits, start, width, hfield⟩ := foldPackedAncillary_eq_some hok
    have hfold : (pool.insts id).opcode.fold ≠ .nothing := by rw [hop]; exact nofun
    have hne : producer ≠ producer' := by
      rintro rfl
      exact h.base_ne hid (by rw [hop]; exact nofun) hfield.base
    obtain ⟨hle, hlast⟩ := @readField_last pool attr offset bits start width
    rw [hfield.eq, pool_foldAncillaryField]
    refine (h.readField.replace (hself hfold) ?_).replace hne (Pool.Reaches.not_of_immediate nofun)
    exact not_reaches_inst hlast (h.lt_size.trans_le hle).ne'

/-- Instructions that no visit replaces, with all that they use. -/
def Pool.Frozen (pool : Pool) (kept : ℕ → Prop) : Prop :=
  ∀ x, kept x → x < pool.size ∧
    ¬((pool.insts x).opcode = .getAttributeU32 ∧ (pool.insts x).arg 0 = .attr .packedAncillary) ∧
    ∀ used, .inst used ∈ (pool.insts x).args → kept used

theorem insts_replace_of_not_mem (hne : u ≠ x) (hargs : .inst x ∉ (pool.insts u).args) :
    (pool.replaceUsesWithAndRemove x r).insts u = pool.insts u := by
  have hmap : (pool.insts u).args.map (Pool.replaceIn x r) = (pool.insts u).args := by
    refine (List.map_congr_left fun v hv => replaceIn_of_ne ?_).trans (List.map_id _)
    rintro rfl
    exact hargs hv
  rw [insts_replace_other hne, hmap]

theorem Pool.Frozen.visited {kept : ℕ → Prop} (h : pool.Frozen kept) (hid : ¬kept id)
    (hvisited : Visited pool id folded) :
    pool.size ≤ folded.pool.size ∧ ∀ x, kept x → folded.pool.insts x = pool.insts x := by
  have hne {x : ℕ} (hx : kept x) : x ≠ id := by
    rintro rfl
    exact hid hx
  cases hvisited with
  | unchanged => exact ⟨le_rfl, fun _ _ => rfl⟩
  | args args _ _ => exact ⟨le_rfl, fun x hx => withArgs_other (hne hx)⟩
  | replace v _ _ =>
    exact ⟨le_rfl, fun x hx => insts_replace_of_not_mem (hne hx) fun hmem =>
      hid ((h x hx).2.2 id hmem)⟩
  | field _ _ hok =>
    obtain ⟨producer, attr, offset, bits, start, width, hfield⟩ := foldPackedAncillary_eq_some hok
    have hproducer : ¬kept producer := fun hk => (h producer hk).2.1 ⟨hfield.opcode, hfield.packed⟩
    rw [hfield.eq, pool_foldAncillaryField]
    refine ⟨?_, fun x hx => ?_⟩
    · unfold Pool.readField
      simp only
      split_ifs
      · exact Nat.le_succ _
      · exact (Nat.le_succ _).trans (Nat.le_succ _)
    · have hmade : (pool.readField attr offset bits start width).1.insts x = pool.insts x :=
        readField_insts (h x hx).1
      have hfirst : ((pool.readField attr offset bits start width).1.replaceUsesWithAndRemove id
          (.inst (pool.readField attr offset bits start width).2)).insts x = pool.insts x := by
        rw [insts_replace_of_not_mem (hne hx), hmade]
        rw [hmade]
        exact fun hmem => hid ((h x hx).2.2 id hmem)
      rw [insts_replace_of_not_mem, hfirst]
      · rintro rfl
        exact hproducer hx
      · rw [hfirst]
        exact fun hmem => hproducer ((h x hx).2.2 producer hmem)

end PS4Droid.Shader.IR
