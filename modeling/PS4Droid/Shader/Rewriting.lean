import PS4Droid.Foundations.Lockstep
import PS4Droid.Shader.Meaning

/-!
# What a visit does to the pool

A visit leaves the pool alone, gives the instruction other arguments, or replaces it; the values it
uses are immediates or arguments that other instructions had. Only a field of the packed ancillary
register also replaces another instruction.
-/

namespace PS4Droid.Shader.IR

variable {pool : Pool} {id x n : ℕ} {v w r : Value} {folded : Folded} {more : Bool}
  {index : ℕ} {op : Opcode} {inst : Inst} {args : List Value} {shape : Shape}

/-- Two new arguments. -/
def Pool.withArgs (pool : Pool) (id : ℕ) (args : List Value) : Pool :=
  { pool with insts := Function.update pool.insts id { pool.insts id with args := args } }

theorem withArgs_self : (pool.withArgs id args).insts id = { pool.insts id with args := args } :=
  Function.update_self _ _ _

theorem withArgs_other {other : ℕ} (hne : other ≠ id) :
    (pool.withArgs id args).insts other = pool.insts other := Function.update_of_ne hne _ _

theorem opcode_withArgs (other : ℕ) :
    ((pool.withArgs id args).insts other).opcode = (pool.insts other).opcode := by
  by_cases hne : other = id
  · rw [hne, withArgs_self]
  · rw [withArgs_other hne]

theorem setArg_setArg :
    (pool.setArg id 0 v).setArg id 1 w = pool.withArgs id
      (((pool.insts id).args.set 0 v).set 1 w) := by
  unfold Pool.setArg Pool.withArgs
  simp only [Function.update_self, Function.update_idem]

/-- An immediate, or an argument of an instruction that is neither an identity nor an extraction. -/
def Pool.Taken (pool : Pool) (v : Value) : Prop :=
  (∀ used, v ≠ .inst used) ∨ ∃ user, v ∈ (pool.insts user).args ∧
    (pool.insts user).opcode ≠ .identity ∧ (pool.insts user).opcode ≠ .bitFieldUExtract

/-- The ways in which a visit changes the pool. -/
inductive Visited (pool : Pool) (id : ℕ) : Folded → Prop
  | unchanged : Visited pool id (.unchanged pool)
  | args (args : List Value) (hfold : (pool.insts id).opcode.fold ≠ .nothing)
      (htaken : ∀ v ∈ args, pool.Taken v) :
    Visited pool id (.unchanged (pool.withArgs id args))
  | replace (v : Value) (hfold : (pool.insts id).opcode.fold ≠ .nothing) (htaken : pool.Taken v) :
    Visited pool id (.remove pool id v)
  | field (folded : Folded) (hop : (pool.insts id).opcode = .bitFieldUExtract)
    (hok : foldPackedAncillary pool id = .ok (some folded)) : Visited pool id folded

theorem opcode_of_fold {single : Opcode} (h : op.fold = single.fold)
    (honly : single ∈ [.iAdd32, .iMul32, .logicalAnd, .logicalOr, .logicalNot, .bitFieldUExtract]) :
    op = single := by
  simp only [List.mem_cons, List.not_mem_nil, or_false] at honly
  rcases honly with rfl | rfl | rfl | rfl | rfl | rfl <;> cases op <;> first | rfl | cases h

theorem opcode_of_fold_compositeExtract {shape : Shape} (h : op.fold = .compositeExtract shape) :
    op = .compositeExtract shape := by
  cases op <;> cases h
  rfl

theorem taken_arg (hid : (pool.insts id).opcode ≠ .identity)
    (hextract : (pool.insts id).opcode ≠ .bitFieldUExtract) :
    pool.Taken ((pool.insts id).arg index) := by
  rw [Inst.arg, List.getD_eq_getElem?_getD]
  cases hget : (pool.insts id).args[index]? with
  | none => exact .inl (by simp)
  | some v => exact .inr ⟨id, List.mem_of_getElem? hget, hid, hextract⟩

theorem not_inst_of_evalImmediates {vals : List Value} {value : Value}
    (h : evalImmediates op vals = .ok value) :
    ∀ used, value ≠ .inst used := by
  rintro used rfl
  unfold evalImmediates at h
  split at h
  · cases op <;> cases h
  · cases op <;> cases h
  · cases op
    case uDiv32 | uMod32 | shiftLeftLogical32 | shiftRightLogical32 | shiftRightArithmetic32 =>
      simp only [evalU32U32] at h
      split_ifs at h
      cases h
    all_goals cases h
  · cases op <;> cases h
  · cases op
    case bitFieldUExtract base shift count =>
      simp only [evalU32U32U32] at h
      cases hfold : foldBitFieldUExtract base shift count <;> rw [hfold] at h <;> cases h
    case bitFieldSExtract base shift count =>
      simp only [evalU32U32U32] at h
      cases hfold : foldBitFieldSExtract base shift count <;> rw [hfold] at h <;> cases h
    all_goals cases h
  · cases op
    case bitFieldInsert base insert offset bits =>
      simp only [evalU32U32U32U32] at h
      cases hfold : foldBitFieldInsert base insert offset bits <;> rw [hfold] at h <;> cases h
    all_goals cases h
  · cases h

theorem not_inst_of_combine (h : combine op v w = .ok r) : ∀ used, r ≠ .inst used := by
  rintro used rfl
  unfold combine at h
  split at h <;> cases h

theorem reassociable_taken (hid : (pool.insts id).opcode ≠ .identity)
    (hextract : (pool.insts id).opcode ≠ .bitFieldUExtract)
    (h : reassociable pool id v = some inst) :
    pool.Taken (inst.arg index) := by
  unfold reassociable at h
  split at h
  · split_ifs at h with hboth
    obtain rfl := Option.some.inj h
    exact taken_arg (by rw [hboth.1]; exact hid) (by rw [hboth.1]; exact hextract)
  · cases h

/-- `FoldCommutative` replaces the instruction or gives it other arguments. -/
theorem foldCommutative_visited (hid : (pool.insts id).opcode ≠ .identity)
    (hextract : (pool.insts id).opcode ≠ .bitFieldUExtract)
    (h : foldCommutative pool id = .ok (folded, more)) :
    (∃ r, pool.Taken r ∧ folded = .remove pool id r ∧ more = false) ∨
      ∃ args, (∀ v ∈ args, pool.Taken v) ∧ folded = .unchanged (pool.withArgs id args) := by
  have hself : ∀ v ∈ (pool.insts id).args, pool.Taken v := fun v hv => .inr ⟨id, hv, hid, hextract⟩
  have hset {v w : Value} (hv : pool.Taken v) (hw : pool.Taken w) :
      ∀ u ∈ ((pool.insts id).args.set 0 v).set 1 w, pool.Taken u := by
    intro u hu
    rcases List.mem_or_eq_of_mem_set hu with hu | rfl
    · rcases List.mem_or_eq_of_mem_set hu with hu | rfl
      · exact hself u hu
      · exact hv
    · exact hw
  have hsame : pool.withArgs id (pool.insts id).args = pool := by
    unfold Pool.withArgs
    rw [Function.update_eq_self]
  unfold foldCommutative at h
  cases hlhs : pool.isImmediate ((pool.insts id).arg 0) <;>
    cases hrhs : pool.isImmediate ((pool.insts id).arg 1) <;>
    simp only [hlhs, hrhs] at h
  · cases h
    exact .inr ⟨_, hself, by rw [hsame]⟩
  · cases hre : reassociable pool id ((pool.insts id).arg 0) with
    | none =>
      rw [hre] at h
      cases h
      exact .inr ⟨_, hself, by rw [hsame]⟩
    | some inst =>
      simp only [hre] at h
      obtain ⟨combined, hcombine, h⟩ := bind_ok h
      cases h
      exact .inr ⟨_, hset (reassociable_taken hid hextract hre)
        (.inl (not_inst_of_combine hcombine)), by rw [setArg_setArg]⟩
  · cases hre : reassociable pool id ((pool.insts id).arg 1) with
    | none =>
      rw [hre] at h
      cases h
      exact .inr ⟨_, hset (taken_arg hid hextract) (taken_arg hid hextract), by rw [setArg_setArg]⟩
    | some inst =>
      simp only [hre] at h
      obtain ⟨combined, hcombine, h⟩ := bind_ok h
      cases h
      exact .inr ⟨_, hset (reassociable_taken hid hextract hre)
        (.inl (not_inst_of_combine hcombine)), by rw [setArg_setArg]⟩
  · obtain ⟨result, hcombine, h⟩ := bind_ok h
    cases h
    exact .inl ⟨result, .inl (not_inst_of_combine hcombine), rfl, rfl⟩

theorem replace_withArgs :
    (pool.withArgs id args).replaceUsesWithAndRemove id r = pool.replaceUsesWithAndRemove id r := by
  unfold Pool.replaceUsesWithAndRemove
  congr 1
  funext user
  by_cases hne : user = id
  · rw [if_pos hne, if_pos hne]
  · rw [if_neg hne, if_neg hne, withArgs_other hne]

theorem ne_identity_of_fold (h : op.fold ≠ .nothing) : op ≠ .identity := by
  rintro rfl
  exact h rfl

theorem foldAbsorbing_visited {absorb : Value → Absorbed}
    (hfold : (pool.insts id).opcode.fold ≠ .nothing)
    (hextract : (pool.insts id).opcode ≠ .bitFieldUExtract)
    (habsorb : ∀ v used, absorb v ≠ .imm (.inst used))
    (h : foldAbsorbing pool id absorb = .ok folded) : Visited pool id folded := by
  have hid := ne_identity_of_fold hfold
  unfold foldAbsorbing at h
  obtain ⟨⟨folded', more⟩, hcommutative, h⟩ := bind_ok h
  rcases foldCommutative_visited hid hextract hcommutative with ⟨r, htaken, rfl, rfl⟩ | ⟨args,
    htaken, rfl⟩
  · cases h
    exact .replace r hfold htaken
  · cases more with
    | false =>
      cases h
      exact .args args hfold htaken
    | true =>
      simp only [if_true] at h
      split at h
      · cases h
        have harg : pool.Taken (((pool.withArgs id args).insts id).arg 0) := by
          rw [withArgs_self, Inst.arg, List.getD_eq_getElem?_getD]
          cases hget : args[0]? with
          | none => exact .inl (by simp)
          | some v => exact htaken v (List.mem_of_getElem? hget)
        unfold Folded.unchanged Folded.remove
        rw [replace_withArgs]
        exact .replace _ hfold harg
      · rename_i value hvalue
        cases h
        unfold Folded.unchanged Folded.remove
        rw [replace_withArgs]
        exact .replace value hfold (.inl fun used heq => habsorb _ used (heq ▸ hvalue))
      · cases h
        exact .args args hfold htaken

theorem foldWhenAllImmediates_visited (hfold : (pool.insts id).opcode.fold ≠ .nothing)
    (h : foldWhenAllImmediates pool id = .ok folded) : Visited pool id folded := by
  unfold foldWhenAllImmediates at h
  by_cases himm : (pool.insts id).args.all pool.isImmediate = true
  · simp only [if_pos himm] at h
    obtain ⟨value, heval, h⟩ := bind_ok h
    cases h
    exact .replace value hfold (.inl (not_inst_of_evalImmediates heval))
  · simp only [if_neg himm] at h
    cases h
    exact .unchanged

theorem foldLogicalNot_visited (hop : (pool.insts id).opcode = .logicalNot) :
    Visited pool id (foldLogicalNot pool id) := by
  have hfold : (pool.insts id).opcode.fold ≠ .nothing := by rw [hop]; exact nofun
  unfold foldLogicalNot
  split
  · exact .replace _ hfold (.inl nofun)
  · split_ifs with hused
    · exact .replace _ hfold (taken_arg (by rw [hused]; exact nofun) (by rw [hused]; exact nofun))
    · exact .unchanged
  · exact .unchanged

theorem foldSelect_visited (hfold : (pool.insts id).opcode.fold = .select) :
    Visited pool id (foldSelect pool id) := by
  have hne : (pool.insts id).opcode.fold ≠ .nothing := by rw [hfold]; exact nofun
  have htaken (index : ℕ) : pool.Taken ((pool.insts id).arg index) := by
    refine taken_arg (ne_identity_of_fold hne) fun hop => ?_
    rw [hop] at hfold
    cases hfold
  unfold foldSelect
  split
  · rename_i cond _
    cases cond with
    | true => exact .replace _ hne (htaken 1)
    | false => exact .replace _ hne (htaken 2)
  · exact .unchanged

theorem foldCompositeExtractImpl_taken {firstIndex : BitVec 32}
    (h : foldCompositeExtractImpl pool shape firstIndex n v = some r) : pool.Taken r := by
  induction n generalizing v with
  | zero => cases h
  | succ n ih =>
    unfold foldCompositeExtractImpl at h
    split at h
    · cases h
    · rename_i used _
      simp only at h
      by_cases hconstruct : (pool.insts used).opcode = .compositeConstruct shape
      · rw [if_pos hconstruct] at h
        obtain rfl := Option.some.inj h
        exact taken_arg (by rw [hconstruct]; exact nofun) (by rw [hconstruct]; exact nofun)
      · by_cases hinsert : (pool.insts used).opcode = .compositeInsert shape
        · rw [if_neg hconstruct, if_pos hinsert] at h
          split at h
          · split_ifs at h
            · obtain rfl := Option.some.inj h
              exact taken_arg (by rw [hinsert]; exact nofun) (by rw [hinsert]; exact nofun)
            · exact ih h
          · cases h
        · rw [if_neg hconstruct, if_neg hinsert] at h
          cases h

theorem foldCompositeExtract_visited (hop : (pool.insts id).opcode = .compositeExtract shape) :
    Visited pool id (foldCompositeExtract pool id shape) := by
  unfold foldCompositeExtract
  split
  · split
    · exact .replace _ (by rw [hop]; exact nofun) (foldCompositeExtractImpl_taken ‹_›)
    · exact .unchanged
  · exact .unchanged

theorem constantPropagation_visited (h : constantPropagation pool id = .ok folded) :
    Visited pool id folded := by
  have hextract (hfold : (pool.insts id).opcode.fold ≠ .bitFieldUExtract) :
      (pool.insts id).opcode ≠ .bitFieldUExtract := by
    intro hop
    rw [hop] at hfold
    exact hfold rfl
  unfold constantPropagation at h
  cases hfold : (pool.insts id).opcode.fold with
  | add =>
    rw [hfold] at h
    refine foldAbsorbing_visited (by rw [hfold]; exact nofun)
      (hextract (by rw [hfold]; exact nofun)) ?_ h
    intro v used habsorb
    split at habsorb
    · split_ifs at habsorb
    · cases habsorb
  | mul | logicalAnd | logicalOr =>
    rw [hfold] at h
    refine foldAbsorbing_visited (by rw [hfold]; exact nofun)
      (hextract (by rw [hfold]; exact nofun)) ?_ h
    intro v used habsorb
    split at habsorb <;> (try split_ifs at habsorb) <;> cases habsorb
  | logicalNot =>
    rw [hfold] at h
    cases h
    exact foldLogicalNot_visited (opcode_of_fold hfold (by decide))
  | select =>
    rw [hfold] at h
    cases h
    exact foldSelect_visited hfold
  | compositeExtract shape =>
    rw [hfold] at h
    cases h
    exact foldCompositeExtract_visited (opcode_of_fold_compositeExtract hfold)
  | whenAllImmediates =>
    rw [hfold] at h
    exact foldWhenAllImmediates_visited (by rw [hfold]; exact nofun) h
  | bitFieldUExtract =>
    rw [hfold] at h
    obtain ⟨result, hancillary, h⟩ := bind_ok h
    cases result with
    | some folded' =>
      cases h
      exact .field _ (opcode_of_fold hfold (by decide)) hancillary
    | none => exact foldWhenAllImmediates_visited (by rw [hfold]; exact nofun) h
  | nothing =>
    rw [hfold] at h
    cases h
    exact .unchanged

/-! ### Chains of identities -/

/-- The chain of identities from a value gets to an instruction. -/
inductive Pool.Reaches (pool : Pool) (id : ℕ) : Value → Prop
  | here : Reaches pool id (.inst id)
  | through {used : ℕ} (hop : (pool.insts used).opcode = .identity)
      (h : Reaches pool id ((pool.insts used).arg 0)) :
    Reaches pool id (.inst used)

theorem reaches_of_resolveWithin (h : pool.resolveWithin n v = .inst id) : pool.Reaches id v := by
  induction n generalizing v with
  | zero =>
    cases v <;> cases h
    exact .here
  | succ n ih =>
    cases v with
    | inst used =>
      rw [Pool.resolveWithin] at h
      split_ifs at h with hop
      · exact .through hop (ih h)
      · cases h
        exact .here
    | _ => cases h

theorem Pool.Reaches.not_of_immediate (hv : ∀ used, v ≠ .inst used) : ¬pool.Reaches id v := by
  intro h
  cases h with
  | here => exact hv id rfl
  | through hop h => exact hv _ rfl

theorem Pool.Reaches.of_withArgs (hx : (pool.insts x).opcode ≠ .identity)
    (h : (pool.withArgs x args).Reaches id v) : pool.Reaches id v := by
  induction h with
  | here => exact .here
  | @through used hop _ ih =>
    rw [opcode_withArgs] at hop
    have hne : used ≠ x := by
      rintro rfl
      exact hx hop
    rw [withArgs_other hne] at ih
    exact .through hop ih

theorem insts_replace_self : (pool.replaceUsesWithAndRemove x r).insts x = ⟨.void, [], []⟩ :=
  if_pos rfl

theorem insts_replace_other (hne : id ≠ x) : (pool.replaceUsesWithAndRemove x r).insts id =
    { pool.insts id with args := (pool.insts id).args.map (Pool.replaceIn x r) } := if_neg hne

theorem arg_replace_other (hne : id ≠ x) :
    ((pool.replaceUsesWithAndRemove x r).insts id).arg index =
    Pool.replaceIn x r ((pool.insts id).arg index) := by
  rw [insts_replace_other hne, Inst.arg, Inst.arg, List.getD_eq_getElem?_getD,
    List.getD_eq_getElem?_getD, List.getElem?_map]
  cases (pool.insts id).args[index]? <;> rfl

theorem replaceIn_of_ne (h : v ≠ .inst x) : Pool.replaceIn x r v = v := by
  cases v with
  | inst used => exact if_neg fun heq => h (congrArg Value.inst heq)
  | _ => rfl

theorem Pool.Reaches.of_replaceIn (hr : ¬pool.Reaches id r)
    (h : pool.Reaches id (Pool.replaceIn x r v)) :
    pool.Reaches id v := by
  by_cases hv : v = .inst x
  · rw [hv, Pool.replaceIn, if_pos rfl] at h
    exact absurd h hr
  · rwa [replaceIn_of_ne hv] at h

theorem Pool.Reaches.of_replace (hr : ¬pool.Reaches id r)
    (h : (pool.replaceUsesWithAndRemove x r).Reaches id v) :
    pool.Reaches id v := by
  induction h with
  | here => exact .here
  | @through used hop _ ih =>
    have hne : used ≠ x := by
      rintro rfl
      rw [insts_replace_self] at hop
      cases hop
    rw [arg_replace_other hne] at ih
    rw [insts_replace_other hne] at hop
    exact .through hop (ih.of_replaceIn hr)

theorem insts_create_self : (pool.create inst).insts pool.size = inst := Function.update_self _ _ _

theorem insts_create_other (hne : id ≠ pool.size) : (pool.create inst).insts id = pool.insts id :=
  Function.update_of_ne hne _ _

theorem Pool.Reaches.of_create (hinst : inst.opcode ≠ .identity)
    (h : (pool.create inst).Reaches id v) :
    pool.Reaches id v := by
  induction h with
  | here => exact .here
  | @through used hop _ ih =>
    have hne : used ≠ pool.size := by
      rintro rfl
      rw [insts_create_self] at hop
      exact hinst hop
    rw [insts_create_other hne] at hop ih
    exact .through hop ih

/-! ### What values resolve to -/

theorem resolveWithin_immediate (hv : ∀ used, v ≠ .inst used) : pool.resolveWithin n v = v := by
  cases v with
  | inst used => exact absurd rfl (hv used)
  | _ => cases n <;> rfl

theorem resolveWithin_inst (hx : (pool.insts x).opcode ≠ .identity) :
    pool.resolveWithin n (.inst x) = .inst x := by
  cases n with
  | zero => rfl
  | succ n => exact if_neg hx

theorem resolveWithin_succ (hw : ∀ used, w = .inst used → (pool.insts used).opcode ≠ .identity)
    (h : pool.resolveWithin n v = w) : pool.resolveWithin (n + 1) v = w := by
  induction n generalizing v with
  | zero =>
    obtain rfl : v = w := by cases v <;> exact h
    cases v with
    | inst used => exact resolveWithin_inst (hw used rfl)
    | _ => rfl
  | succ n ih =>
    cases v with
    | inst used =>
      rw [Pool.resolveWithin] at h ⊢
      split_ifs at h ⊢ with hop
      · exact ih h
      · exact h
    | _ => exact h

theorem resolveWithin_withArgs (hx : (pool.insts x).opcode ≠ .identity) :
    (pool.withArgs x args).resolveWithin n v = pool.resolveWithin n v := by
  induction n generalizing v with
  | zero => cases v <;> rfl
  | succ n ih =>
    cases v with
    | inst used =>
      rw [Pool.resolveWithin, Pool.resolveWithin, opcode_withArgs]
      split_ifs with hop
      · have hne : used ≠ x := by
          rintro rfl
          exact hx hop
        rw [withArgs_other hne, ih]
      · rfl
    | _ => rfl

/-- Replacing an instruction changes nothing for values that do not resolve to it. -/
theorem resolveWithin_replace (hx : (pool.insts x).opcode ≠ .identity)
    (hv : pool.resolveWithin n v ≠ .inst x) :
    (pool.replaceUsesWithAndRemove x r).resolveWithin n v = pool.resolveWithin n v := by
  induction n generalizing v with
  | zero => cases v <;> rfl
  | succ n ih =>
    cases v with
    | inst used =>
      have hne : used ≠ x := by
        rintro rfl
        exact hv (resolveWithin_inst hx)
      rw [Pool.resolveWithin] at hv
      rw [Pool.resolveWithin, Pool.resolveWithin, insts_replace_other hne]
      split_ifs at hv ⊢ with hop
      · have harg : (pool.insts used).arg 0 ≠ .inst x := by
          intro heq
          rw [heq, resolveWithin_inst hx] at hv
          exact hv rfl
        have harg' : ((pool.replaceUsesWithAndRemove x r).insts used).arg 0 =
          (pool.insts used).arg 0 :=
          (arg_replace_other hne).trans (replaceIn_of_ne harg)
        rw [insts_replace_other hne] at harg'
        rw [harg', ih hv]
      · rfl
    | _ => rfl

/-- Values that resolve to the instruction get the immediate that replaces it. -/
theorem resolveWithin_replace_self (hr : ∀ used, r ≠ .inst used)
    (hv : pool.resolveWithin n v = .inst x) :
    (pool.replaceUsesWithAndRemove x r).resolveWithin n (Pool.replaceIn x r v) = r := by
  by_cases hself : v = .inst x
  · rw [hself, Pool.replaceIn, if_pos rfl, resolveWithin_immediate hr]
  · induction n generalizing v with
    | zero => exact absurd (by cases v <;> exact hv) hself
    | succ n ih =>
      cases v with
      | inst used =>
        rw [Pool.resolveWithin] at hv
        split_ifs at hv with hop
        · have hne : used ≠ x := fun heq => hself (congrArg Value.inst heq)
          have hop' : ((pool.replaceUsesWithAndRemove x r).insts used).opcode = .identity := by
            rw [insts_replace_other hne]
            exact hop
          rw [replaceIn_of_ne hself, Pool.resolveWithin, if_pos hop', arg_replace_other hne]
          by_cases hnext : (pool.insts used).arg 0 = .inst x
          · rw [hnext, Pool.replaceIn, if_pos rfl, resolveWithin_immediate hr]
          · exact ih hv hnext
        · exact absurd hv hself
      | _ => cases hv

theorem resolveWithin_create (hsize : (pool.insts pool.size).opcode ≠ .identity)
    (hv : pool.resolveWithin n v ≠ .inst pool.size) :
    (pool.create inst).resolveWithin n v = pool.resolveWithin n v := by
  induction n generalizing v with
  | zero => cases v <;> rfl
  | succ n ih =>
    cases v with
    | inst used =>
      have hne : used ≠ pool.size := by
        rintro rfl
        exact hv (resolveWithin_inst hsize)
      rw [Pool.resolveWithin] at hv
      rw [Pool.resolveWithin, Pool.resolveWithin, insts_create_other hne]
      split_ifs at hv ⊢ with hop
      · exact ih hv
      · rfl
    | _ => rfl

end PS4Droid.Shader.IR
