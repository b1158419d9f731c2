import PS4Droid.Shader.Ir

/-!
# The uses of an instruction

Every instruction lists the operands that refer to it. The functions of `microinstruction.cpp` keep
the lists when they rewrite operands. Whether an operand counts as a reference is decided by
`IsImmediate`, which looks through `Identity` instructions.
-/

namespace PS4Droid.Shader.IR

/-- An instruction with its uses: the user and the number of its operand. The array of a phi is
`phi_args`; the others have six places. -/
structure UsedInst where
  opcode : Opcode
  args : List Value
  phiBlocks : List ℕ
  uses : List (ℕ × ℕ)

abbrev Insts := ℕ → UsedInst

def maxArgs : ℕ := 6

namespace Insts

variable (numArgsOf : Opcode → Fin (maxArgs + 1))

def modify (s : Insts) (id : ℕ) (f : UsedInst → UsedInst) : Insts := Function.update s id (f (s id))

def arg (s : Insts) (id index : ℕ) : Value := (s id).args.getD index .void

def numArgs (s : Insts) (id : ℕ) : ℕ :=
  if (s id).opcode = .phi then (s id).args.length else numArgsOf (s id).opcode

/-- `Value::IsImmediate`; `none` when the chain of identities has not ended after `fuel` steps. -/
def isImmediate (s : Insts) : ℕ → Value → Option Bool
  | fuel, .inst id =>
    if (s id).opcode = .identity then
      match fuel with
      | 0 => none
      | fuel + 1 => isImmediate s fuel (s.arg id 0)
    else some false
  | _, _ => some true

def use (s : Insts) (user used operand : ℕ) : Insts :=
  s.modify used fun inst => { inst with uses := (user, operand) :: inst.uses }

/-- `list::remove` takes out every equal element. -/
def undoUse (s : Insts) (user used operand : ℕ) : Insts :=
  s.modify used fun inst => { inst with uses := inst.uses.filter (· ≠ (user, operand)) }

/-- `if (!value.IsImmediate()) UndoUse(value.Inst(), operand)`. -/
def release (fuel : ℕ) (s : Insts) (user operand : ℕ) (value : Value) : Option Insts := do
  if ← s.isImmediate fuel value then return s
  match value with
  | .inst used => return s.undoUse user used operand
  | _ => return s

/-- `if (!value.IsImmediate()) Use(value.Inst(), operand)`. -/
def acquire (fuel : ℕ) (s : Insts) (user operand : ℕ) (value : Value) : Option Insts := do
  if ← s.isImmediate fuel value then return s
  match value with
  | .inst used => return s.use user used operand
  | _ => return s

/-- An index behind the arguments is reported as unreachable. -/
def setArg (fuel : ℕ) (s : Insts) (user index : ℕ) (value : Value) : Option Insts :=
  if index < s.numArgs numArgsOf user then do
    let s ← s.release fuel user index (s.arg user index)
    let s ← s.acquire fuel user index value
    return s.modify user fun inst => { inst with args := inst.args.set index value }
  else none

/-- The operands of a phi only; the others have no `phi_args`. -/
def addPhiOperand (fuel : ℕ) (s : Insts) (phi predecessor : ℕ) (value : Value) : Option Insts :=
  if (s phi).opcode = .phi then do
    let s ← s.acquire fuel phi (s phi).args.length value
    return s.modify phi fun inst =>
      { inst with args := inst.args ++ [value], phiBlocks := inst.phiBlocks ++ [predecessor] }
  else none

/-- The loops of `ClearArgs`, from operand `index` on. -/
def releaseFrom (fuel user : ℕ) : ℕ → List Value → Insts → Option Insts
  | _, [], s => some s
  | index, value :: values, s => do
    let s ← s.release fuel user index value
    releaseFrom fuel user (index + 1) values s

/-- No arguments for a phi, and six empty values for the others. -/
def emptied (inst : UsedInst) : UsedInst :=
  if inst.opcode = .phi then { inst with args := [], phiBlocks := [] }
  else { inst with args := List.replicate maxArgs .void }

def clearArgs (fuel : ℕ) (s : Insts) (id : ℕ) : Option Insts := do
  let s ← releaseFrom fuel id 0 (s id).args s
  return s.modify id emptied

def replaceOpcode (s : Insts) (id : ℕ) (opcode : Opcode) : Option Insts :=
  if opcode = .phi then none
  else if (s id).opcode = .phi then
    some (s.modify id fun inst =>
      { inst with opcode, args := List.replicate maxArgs .void, phiBlocks := [] })
  else some (s.modify id fun inst => { inst with opcode })

def invalidate (fuel : ℕ) (s : Insts) (id : ℕ) : Option Insts := do
  let s ← s.clearArgs fuel id
  s.replaceOpcode id .void

/-- The loop of `ReplaceUsesWith` over the copied list. -/
def setUses (fuel : ℕ) (replacement : Value) : List (ℕ × ℕ) → Insts → Option Insts
  | [], s => some s
  | use :: uses, s => do
    let s ← s.setArg numArgsOf fuel use.1 use.2 replacement
    setUses fuel replacement uses s

def replaceUsesWith (fuel : ℕ) (s : Insts) (id : ℕ) (replacement : Value) (preserve : Bool) :
    Option Insts := do
  let s ← setUses numArgsOf fuel replacement (s id).uses s
  let s ← s.invalidate fuel id
  if preserve then
    let s ← s.replaceOpcode id .identity
    s.setArg numArgsOf fuel id 0 replacement
  else return s

/-! ### Mirrors -/

/-- The number of times that an operand is to be listed by `used`. -/
def refers (s : Insts) (user operand used : ℕ) : ℕ :=
  if (s user).args[operand]? = some (.inst used) then 1 else 0

/-- The lists of uses say what the arguments do, and places behind the arguments hold no
instruction. -/
structure Mirror (s : Insts) : Prop where
  uses : ∀ used user operand, (s used).uses.count (user, operand) = s.refers user operand used
  length : ∀ id, (s id).opcode ≠ .phi → (s id).args.length = maxArgs
  clean : ∀ id k, s.numArgs numArgsOf id ≤ k → ∀ v, (s id).args[k]? ≠ some (.inst v)

/-- `IsImmediate` says of a value what its type does: it is no `Identity` that ends in an
immediate. -/
def Direct (fuel : ℕ) (s : Insts) (value : Value) : Prop :=
  ∀ id, value = .inst id → s.isImmediate fuel value ≠ some true

/-- A call of `SetArg` takes out and puts in direct values. -/
def SetsDirect (fuel : ℕ) (s : Insts) (user index : ℕ) (value : Value) : Prop :=
  s.Direct fuel (s.arg user index) ∧ s.Direct fuel value

def ArgsDirect (fuel : ℕ) (s : Insts) (id : ℕ) : Prop := ∀ value ∈ (s id).args, s.Direct fuel value

/-- So do all calls of the loop of `ReplaceUsesWith`, each in the state before it. -/
def LoopDirect (fuel : ℕ) (replacement : Value) : List (ℕ × ℕ) → Insts → Prop
  | [], _ => True
  | use :: uses, s => s.SetsDirect fuel use.1 use.2 replacement ∧
    ∀ t, s.setArg numArgsOf fuel use.1 use.2 replacement = some t →
      LoopDirect fuel replacement uses t

/-- So do all calls that `ReplaceUsesWith` makes. -/
def ReplacesDirect (fuel : ℕ) (s : Insts) (id : ℕ) (replacement : Value) (preserve : Bool) : Prop :=
  LoopDirect numArgsOf fuel replacement (s id).uses s ∧
    ∀ t, setUses numArgsOf fuel replacement (s id).uses s = some t → t.ArgsDirect fuel id ∧
      (preserve = true → ∀ t₁ t₂, t.invalidate fuel id = some t₁ →
        t₁.replaceOpcode id .identity = some t₂ → t₂.SetsDirect fuel id 0 replacement)

/-- What the passes ask of `ReplaceOpcode`: the places behind the new arguments hold no instruction,
nor do those of a phi. -/
def OpcodeFits (s : Insts) (id : ℕ) (opcode : Opcode) : Prop :=
  ∀ k, (s id).opcode = .phi ∨ (numArgsOf opcode : ℕ) ≤ k → ∀ v, (s id).args[k]? ≠ some (.inst v)

/-- The states that calls with direct values reach from new instructions. -/
inductive Reached (fuel : ℕ) : Insts → Prop
  | fresh {s} (h : ∀ id, (s id).uses = [] ∧
      (s id).args = if (s id).opcode = .phi then [] else List.replicate maxArgs .void) :
        Reached fuel s
  | setArg {s t user index value} (h : Reached fuel s) (hd : s.SetsDirect fuel user index value)
      (ht : s.setArg numArgsOf fuel user index value = some t) : Reached fuel t
  | addPhiOperand {s t phi predecessor value} (h : Reached fuel s) (hd : s.Direct fuel value)
      (ht : s.addPhiOperand fuel phi predecessor value = some t) : Reached fuel t
  | clearArgs {s t id} (h : Reached fuel s) (hd : s.ArgsDirect fuel id)
      (ht : s.clearArgs fuel id = some t) :
      Reached fuel t
  | invalidate {s t id} (h : Reached fuel s) (hd : s.ArgsDirect fuel id)
      (ht : s.invalidate fuel id = some t) :
      Reached fuel t
  | replaceOpcode {s t id opcode} (h : Reached fuel s) (hd : s.OpcodeFits numArgsOf id opcode)
      (ht : s.replaceOpcode id opcode = some t) : Reached fuel t
  | replaceUsesWith {s t id replacement preserve} (h : Reached fuel s)
      (hd : s.ReplacesDirect numArgsOf fuel id replacement preserve)
      (ht : s.replaceUsesWith numArgsOf fuel id replacement preserve = some t) : Reached fuel t

/-- Two states that differ in their uses only. -/
structure SameArgs (s t : Insts) : Prop where
  opcode : ∀ id, (t id).opcode = (s id).opcode
  args : ∀ id, (t id).args = (s id).args

variable {numArgsOf} {s t : Insts} {fuel id user operand used : ℕ} {value replacement : Value}
  {preserve : Bool}

@[simp]
theorem modify_self (f : UsedInst → UsedInst) : s.modify id f id = f (s id) :=
  Function.update_self ..

theorem modify_of_ne {x : ℕ} (h : x ≠ id) (f : UsedInst → UsedInst) : s.modify id f x = s x :=
  Function.update_of_ne h ..

variable {f : UsedInst → UsedInst}

/-- What a change keeps of the instruction, it keeps of all. -/
theorem modify_field {α : Type} {field : UsedInst → α} (hf : ∀ i, field (f i) = field i)
    (s : Insts) (id x : ℕ) : field (s.modify id f x) = field (s x) := by
  by_cases hx : x = id
  · subst hx
    rw [modify_self, hf]
  · rw [modify_of_ne hx]

/-- A guarded update keeps the instructions, or it updates the uses of the operand. -/
theorem unless_immediate {update : ℕ → Insts} (h : (do
    if ← s.isImmediate fuel value then return s
    match value with
    | .inst used => return update used
    | _ => return s) = some t) :
    t = s ∧ (∀ id, value = .inst id → s.isImmediate fuel value = some true) ∨
      ∃ used, value = .inst used ∧ t = update used := by
  cases himm : s.isImmediate fuel value with
  | none => simp [himm] at h
  | some b =>
    cases b with
    | true =>
      simp [himm] at h
      exact .inl ⟨h.symm, fun _ _ => rfl⟩
    | false =>
      cases value <;> simp [himm] at h
      case inst used => exact .inr ⟨used, rfl, h.symm⟩
      all_goals exact .inl ⟨h.symm, by simp⟩

/-- Releasing a direct operand takes its use out, and nothing else. -/
theorem release_count (h : s.release fuel user operand value = some t)
    (hdirect : s.Direct fuel value) (v u o : ℕ) :
    (t v).uses.count (u, o) =
      if (u, o) = (user, operand) ∧ value = .inst v then 0 else (s v).uses.count (u, o) := by
  obtain ⟨rfl, hinst⟩ | ⟨used, rfl, rfl⟩ := unless_immediate h
  · rw [if_neg fun hand => hdirect v hand.2 (hinst v hand.2)]
  · simp only [undoUse, Value.inst.injEq]
    by_cases hv : v = used
    · subst hv
      rw [modify_self]
      by_cases heq : (u, o) = (user, operand)
      · rw [if_pos ⟨heq, rfl⟩, heq]
        exact List.count_eq_zero.mpr (by simp)
      · rw [if_neg (fun hand => heq hand.1)]
        exact List.count_filter (decide_eq_true heq)
    · rw [modify_of_ne hv, if_neg (fun hand => hv hand.2.symm)]

theorem acquire_count (h : s.acquire fuel user operand value = some t)
    (hdirect : s.Direct fuel value) (v u o : ℕ) :
    (t v).uses.count (u, o) =
      (s v).uses.count (u, o) + if (u, o) = (user, operand) ∧ value = .inst v then 1 else 0 := by
  obtain ⟨rfl, hinst⟩ | ⟨used, rfl, rfl⟩ := unless_immediate h
  · rw [if_neg fun hand => hdirect v hand.2 (hinst v hand.2), Nat.add_zero]
  · simp only [use, Value.inst.injEq]
    by_cases hv : v = used
    · subst hv
      rw [modify_self, List.count_cons]
      congr 1
      by_cases heq : (u, o) = (user, operand)
      · rw [if_pos (beq_iff_eq.mpr heq.symm), if_pos ⟨heq, rfl⟩]
      · rw [if_neg (fun h => heq (beq_iff_eq.mp h).symm), if_neg (fun hand => heq hand.1)]
    · rw [modify_of_ne hv, if_neg (fun hand => hv hand.2.symm), Nat.add_zero]

theorem SameArgs.refl (s : Insts) : SameArgs s s := ⟨fun _ => rfl, fun _ => rfl⟩

theorem SameArgs.trans {s₁ : Insts} (h : SameArgs s s₁) (h' : SameArgs s₁ t) : SameArgs s t :=
  ⟨fun id => (h'.opcode id).trans (h.opcode id), fun id => (h'.args id).trans (h.args id)⟩

theorem SameArgs.modify (hf : ∀ i, (f i).opcode = i.opcode ∧ (f i).args = i.args) (s : Insts)
    (id : ℕ) : SameArgs s (s.modify id f) :=
  ⟨modify_field (fun i => (hf i).1) s id, modify_field (fun i => (hf i).2) s id⟩

theorem SameArgs.isImmediate (h : SameArgs s t) (fuel : ℕ) (value : Value) :
    t.isImmediate fuel value = s.isImmediate fuel value := by
  induction fuel generalizing value with
  | zero => cases value <;> simp [Insts.isImmediate, h.opcode]
  | succ fuel ih => cases value <;> simp [Insts.isImmediate, h.opcode, ih, arg, h.args]

theorem SameArgs.direct (h : SameArgs s t) (hd : s.Direct fuel value) : t.Direct fuel value := by
  intro id heq
  rw [h.isImmediate]
  exact hd id heq

theorem release_same (h : s.release fuel user operand value = some t) : SameArgs s t := by
  obtain ⟨rfl, -⟩ | ⟨used, -, rfl⟩ := unless_immediate h
  · exact .refl t
  · apply SameArgs.modify
    exact fun _ => ⟨rfl, rfl⟩

theorem acquire_same (h : s.acquire fuel user operand value = some t) : SameArgs s t := by
  obtain ⟨rfl, -⟩ | ⟨used, -, rfl⟩ := unless_immediate h
  · exact .refl t
  · apply SameArgs.modify
    exact fun _ => ⟨rfl, rfl⟩

theorem Mirror.lt_length (h : s.Mirror numArgsOf) (hlt : operand < s.numArgs numArgsOf id) :
    operand < (s id).args.length := by
  unfold numArgs at hlt
  split_ifs at hlt with hphi
  · exact hlt
  · rw [h.length id hphi]
    exact Nat.lt_of_lt_of_le hlt (Nat.le_of_lt_succ (numArgsOf (s id).opcode).isLt)

theorem arg_eq_iff (h : value ≠ .void) :
    s.arg id operand = value ↔ (s id).args[operand]? = some value := by
  rw [arg, List.getD_eq_getElem?_getD]
  cases (s id).args[operand]? with
  | none => simp [h.symm]
  | some v => simp

/-! ### The rewrites of operands -/

section

variable {index : ℕ}

/-- The arguments and opcodes after `SetArg`. -/
theorem setArg_fields (ht : s.setArg numArgsOf fuel user index value = some t) :
    index < s.numArgs numArgsOf user ∧ (∀ x, (t x).opcode = (s x).opcode) ∧
      ∀ x, (t x).args = if x = user then (s user).args.set index value else (s x).args := by
  unfold setArg at ht
  split_ifs at ht with hlt
  obtain ⟨s₁, h₁, ht⟩ := Option.bind_eq_some_iff.mp ht
  obtain ⟨s₂, h₂, ht⟩ := Option.bind_eq_some_iff.mp ht
  have hsame := (release_same h₁).trans (acquire_same h₂)
  cases ht
  constructor
  · exact hlt
  · constructor
    · intro x
      rw [← hsame.opcode]
      exact modify_field (by intro; rfl) s₂ user x
    · intro x
      by_cases hx : x = user
      · subst hx
        simp [hsame.args]
      · rw [modify_of_ne hx, if_neg hx, hsame.args]

theorem setArg_count (ht : s.setArg numArgsOf fuel user index value = some t)
    (hd : s.SetsDirect fuel user index value) (v u o : ℕ) : (t v).uses.count (u, o) =
      (if (u, o) = (user, index) ∧ s.arg user index = .inst v then 0 else (s v).uses.count (u, o)) +
        if (u, o) = (user, index) ∧ value = .inst v then 1 else 0 := by
  unfold setArg at ht
  split_ifs at ht with hlt
  obtain ⟨s₁, h₁, ht⟩ := Option.bind_eq_some_iff.mp ht
  obtain ⟨s₂, h₂, ht⟩ := Option.bind_eq_some_iff.mp ht
  cases ht
  rw [← release_count h₁ hd.1, ← acquire_count h₂ ((release_same h₁).direct hd.2)]
  congr 1
  exact modify_field (by intro; rfl) s₂ user v

theorem Mirror.setArg (h : s.Mirror numArgsOf) (hd : s.SetsDirect fuel user index value)
    (ht : s.setArg numArgsOf fuel user index value = some t) : t.Mirror numArgsOf := by
  obtain ⟨hlt, hopcode, hargs⟩ := setArg_fields ht
  have hlen := h.lt_length hlt
  constructor
  · intro v u o
    rw [setArg_count ht hd, h.uses]
    by_cases heq : (u, o) = (user, index)
    · obtain ⟨rfl, rfl⟩ := Prod.mk.inj heq
      have harg := @arg_eq_iff s u o (.inst v) (by simp)
      simp only [true_and, refers, hargs, if_true, List.getElem?_set_self hlen, Option.some.injEq,
        harg]
      split_ifs <;> rfl
    · have hset : (t u).args[o]? = (s u).args[o]? := by
        rw [hargs]
        split_ifs with hu
        · subst hu
          rw [List.getElem?_set_ne (fun hi => heq (by rw [hi]))]
        · rfl
      simp only [heq, false_and, if_false, Nat.add_zero, refers, hset]
  · intro id hid
    rw [hopcode] at hid
    rw [hargs]
    split_ifs with hu
    · subst hu
      rw [List.length_set]
      exact h.length _ hid
    · exact h.length id hid
  · intro id k hk v
    have hnum : s.numArgs numArgsOf id ≤ k := by
      unfold numArgs at hk ⊢
      rw [hopcode, hargs] at hk
      split_ifs at hk ⊢ with hphi hu
      · subst hu
        rwa [List.length_set] at hk
      · exact hk
      · exact hk
    rw [hargs]
    split_ifs with hu
    · subst hu
      rw [List.getElem?_set_ne (by omega)]
      exact h.clean _ k hnum v
    · exact h.clean id k hnum v

theorem Mirror.addPhiOperand {phi predecessor : ℕ} (h : s.Mirror numArgsOf)
    (hd : s.Direct fuel value)
    (ht : s.addPhiOperand fuel phi predecessor value = some t) : t.Mirror numArgsOf := by
  unfold Insts.addPhiOperand at ht
  split_ifs at ht with hphi
  obtain ⟨s₁, h₁, ht⟩ := Option.bind_eq_some_iff.mp ht
  cases ht
  generalize hfun : (fun inst : UsedInst =>
    { inst with args := inst.args ++ [value], phiBlocks := inst.phiBlocks ++ [predecessor] }) = f
  have hf : ∀ i, (f i).opcode = i.opcode ∧ (f i).args = i.args ++ [value] ∧
    (f i).uses = i.uses := by
    subst hfun
    exact fun _ => ⟨rfl, rfl, rfl⟩
  have hsame := acquire_same h₁
  have hopcode : ∀ x, (s₁.modify phi f x).opcode = (s x).opcode := fun x =>
    (modify_field (fun i => (hf i).1) s₁ phi x).trans (hsame.opcode x)
  have hargs : ∀ x, x ≠ phi → (s₁.modify phi f x).args = (s x).args := by
    intro x hx
    rw [modify_of_ne hx, hsame.args]
  have hargsPhi : (s₁.modify phi f phi).args = (s phi).args ++ [value] := by
    rw [modify_self, (hf _).2.1, hsame.args]
  constructor
  · intro v u o
    rw [modify_field fun i => (hf i).2.2, acquire_count h₁ hd, h.uses]
    unfold refers
    by_cases hu : u = phi
    · subst hu
      rw [hargsPhi]
      rcases Nat.lt_trichotomy o (s u).args.length with ho | rfl | ho
      · rw [List.getElem?_append_left ho, if_neg (c := (u, o) = _ ∧ _), Nat.add_zero]
        exact fun hand => absurd (congrArg Prod.snd hand.1) (Nat.ne_of_lt ho)
      · simp
      · have hne : (u, o) ≠ (u, (s u).args.length) :=
          fun heq => absurd (congrArg Prod.snd heq) (Nat.ne_of_gt ho)
        simp only [hne, false_and, if_false, Nat.add_zero]
        rw [List.getElem?_eq_none (Nat.le_of_lt ho),
          List.getElem?_eq_none (by rw [List.length_append, List.length_singleton]; exact ho)]
    · have hne : (u, o) ≠ (phi, (s phi).args.length) := fun heq => hu (congrArg Prod.fst heq)
      simp only [hne, false_and, if_false, Nat.add_zero, hargs u hu]
  · intro id hid
    rw [hopcode] at hid
    rw [hargs id (fun heq => hid (heq ▸ hphi))]
    exact h.length id hid
  · intro id k hk v
    unfold numArgs at hk
    rw [hopcode] at hk
    by_cases hid : id = phi
    · subst hid
      rw [if_pos hphi] at hk
      rw [List.getElem?_eq_none hk]
      simp
    · rw [hargs id hid] at hk ⊢
      exact h.clean id k hk v

variable {values : List Value} {opcode : Opcode}

/-- The loops of `ClearArgs` change no arguments. -/
theorem releaseFrom_same (h : releaseFrom fuel user index values s = some t) : SameArgs s t := by
  induction values generalizing index s with
  | nil =>
    cases h
    exact .refl _
  | cons value values ih =>
    obtain ⟨s₁, h₁, h⟩ := Option.bind_eq_some_iff.mp h
    exact (release_same h₁).trans (ih h)

/-- They take out the uses of the operands that they go over, and no others. -/
theorem releaseFrom_count (h : releaseFrom fuel user index values s = some t)
    (hd : ∀ value ∈ values, s.Direct fuel value) (v u o : ℕ) : (t v).uses.count (u, o) =
      if u = user ∧ index ≤ o ∧ values[o - index]? = some (.inst v) then 0
        else (s v).uses.count (u, o) := by
  induction values generalizing index s with
  | nil =>
    cases h
    simp
  | cons value values ih =>
    obtain ⟨s₁, h₁, h⟩ := Option.bind_eq_some_iff.mp h
    have hd' : ∀ w ∈ values, s₁.Direct fuel w :=
      fun w hw => (release_same h₁).direct (hd w (List.mem_cons_of_mem _ hw))
    rw [ih h hd', release_count h₁ (hd value List.mem_cons_self)]
    by_cases hu : u = user
    · subst hu
      rcases Nat.lt_trichotomy o index with ho | rfl | ho
      · have hne : (u, o) ≠ (u, index) :=
          fun heq => absurd (congrArg Prod.snd heq) (Nat.ne_of_lt ho)
        simp only [hne, false_and, if_false, Nat.not_le.mpr ho, and_false,
          Nat.not_le.mpr (Nat.lt_succ_of_lt ho)]
      · rw [if_neg (fun hand => Nat.not_succ_le_self o hand.2.1)]
        simp
      · have hne : (u, o) ≠ (u, index) :=
          fun heq => absurd (congrArg Prod.snd heq) (Nat.ne_of_gt ho)
        obtain ⟨k, rfl⟩ := Nat.exists_eq_add_of_lt ho
        have hk : index + k + 1 - index = k + 1 := by omega
        have hk' : index + k + 1 - (index + 1) = k := by omega
        have hle : index + 1 ≤ index + k + 1 := by omega
        have hle' : index ≤ index + k + 1 := by omega
        simp only [hne, false_and, if_false, hk, hk', hle, hle', List.getElem?_cons_succ]
    · have hne : (u, o) ≠ (user, index) := fun heq => hu (congrArg Prod.fst heq)
      simp only [hne, hu, false_and, if_false]

theorem clearArgs_fields (ht : s.clearArgs fuel id = some t) :
    (∀ x, (t x).opcode = (s x).opcode) ∧ (∀ x, x ≠ id → (t x).args = (s x).args) ∧
      ∀ k v : ℕ, (t id).args[k]? ≠ some (.inst v) := by
  obtain ⟨s₁, h₁, ht⟩ := Option.bind_eq_some_iff.mp ht
  cases ht
  have hsame := releaseFrom_same h₁
  constructor
  · intro x
    rw [← hsame.opcode]
    apply modify_field
    intro inst
    unfold emptied
    split_ifs <;> rfl
  · constructor
    · intro x hx
      rw [modify_of_ne hx, hsame.args]
    · intro k v
      rw [modify_self, emptied]
      split_ifs
      · simp
      · simp [List.getElem?_replicate]

theorem Mirror.clearArgs (h : s.Mirror numArgsOf) (hd : s.ArgsDirect fuel id)
    (ht : s.clearArgs fuel id = some t) :
    t.Mirror numArgsOf := by
  obtain ⟨hopcode, hargs, hgone⟩ := clearArgs_fields ht
  obtain ⟨s₁, h₁, ht⟩ := Option.bind_eq_some_iff.mp ht
  cases ht
  have hempty : ∀ inst, (emptied inst).uses = inst.uses := by
    intro inst
    unfold emptied
    split_ifs <;> rfl
  constructor
  · intro v u o
    rw [modify_field hempty, releaseFrom_count h₁ hd, h.uses]
    unfold refers
    by_cases hu : u = id
    · subst hu
      simp only [hgone, if_false, true_and, Nat.zero_le, Nat.sub_zero]
      split_ifs <;> rfl
    · simp only [hu, false_and, if_false, hargs u hu]
  · intro x hx
    rw [hopcode] at hx
    by_cases hid : x = id
    · subst hid
      rw [modify_self, emptied, (releaseFrom_same h₁).opcode, if_neg hx]
      exact List.length_replicate
    · rw [hargs x hid]
      exact h.length x hx
  · intro x k hk v
    by_cases hid : x = id
    · exact hid ▸ hgone k v
    · rw [hargs x hid]
      apply h.clean x k
      unfold numArgs at hk ⊢
      rwa [hopcode, hargs x hid] at hk

theorem replaceOpcode_fields (ht : s.replaceOpcode id opcode = some t) :
    opcode ≠ .phi ∧ (t id).opcode = opcode ∧ (∀ x, x ≠ id → t x = s x) ∧
      (∀ x, (t x).uses = (s x).uses) ∧
      (t id).args = if (s id).opcode = .phi then List.replicate maxArgs .void else (s id).args := by
  unfold replaceOpcode at ht
  split_ifs at ht with hop hphi
  all_goals
    cases ht
    constructor
    · exact hop
    · constructor
      · rw [modify_self]
      · constructor
        · exact fun x hx => modify_of_ne hx _
        · constructor
          · exact modify_field (by intro; rfl) s id
          · simp [hphi]

theorem Mirror.replaceOpcode (h : s.Mirror numArgsOf) (hd : s.OpcodeFits numArgsOf id opcode)
    (ht : s.replaceOpcode id opcode = some t) : t.Mirror numArgsOf := by
  obtain ⟨hop, hopcode, hother, huses, hargs⟩ := replaceOpcode_fields ht
  -- the instructions among the arguments stay, or a phi has none to lose
  have hinst : ∀ x k v : ℕ, (t x).args[k]? = some (.inst v) ↔ (s x).args[k]? = some (.inst v) := by
    intro x k v
    by_cases hx : x = id
    · subst hx
      rw [hargs]
      split_ifs with hphi
      · have hnone := hd k (.inl hphi) v
        simp [List.getElem?_replicate, hnone]
      · rfl
    · rw [hother x hx]
  constructor
  · intro v u o
    rw [huses, h.uses]
    simp only [refers, hinst]
  · intro x hx
    by_cases hid : x = id
    · subst hid
      rw [hargs]
      split_ifs with hphi
      · exact List.length_replicate
      · exact h.length x hphi
    · rw [hother x hid] at hx ⊢
      exact h.length x hx
  · intro x k hk v
    rw [Ne, hinst]
    by_cases hid : x = id
    · subst hid
      apply hd k
      unfold numArgs at hk
      rw [hopcode, if_neg hop] at hk
      exact .inr hk
    · apply h.clean x k
      unfold numArgs at hk ⊢
      rwa [hother x hid] at hk

theorem Mirror.invalidate (h : s.Mirror numArgsOf) (hd : s.ArgsDirect fuel id)
    (ht : s.invalidate fuel id = some t) :
    t.Mirror numArgsOf := by
  obtain ⟨s₁, h₁, ht⟩ := Option.bind_eq_some_iff.mp ht
  apply (h.clearArgs hd h₁).replaceOpcode _ ht
  intro k _ v
  exact (clearArgs_fields h₁).2.2 k v

theorem Mirror.setUses {uses : List (ℕ × ℕ)} (h : s.Mirror numArgsOf)
    (hd : LoopDirect numArgsOf fuel replacement uses s)
    (ht : setUses numArgsOf fuel replacement uses s = some t) : t.Mirror numArgsOf := by
  induction uses generalizing s with
  | nil =>
    cases ht
    exact h
  | cons use uses ih =>
    obtain ⟨s₁, h₁, ht⟩ := Option.bind_eq_some_iff.mp ht
    exact ih (h.setArg hd.1 h₁) (hd.2 s₁ h₁) ht

theorem invalidate_gone (ht : s.invalidate fuel id = some t) (k v : ℕ) :
    (t id).args[k]? ≠ some (.inst v) := by
  obtain ⟨s₁, h₁, ht⟩ := Option.bind_eq_some_iff.mp ht
  rw [(replaceOpcode_fields ht).2.2.2.2]
  split_ifs
  · simp [List.getElem?_replicate]
  · exact (clearArgs_fields h₁).2.2 k v

theorem Mirror.replaceUsesWith (h : s.Mirror numArgsOf)
    (hd : s.ReplacesDirect numArgsOf fuel id replacement preserve)
    (ht : s.replaceUsesWith numArgsOf fuel id replacement preserve = some t) :
    t.Mirror numArgsOf := by
  obtain ⟨s₁, h₁, ht⟩ := Option.bind_eq_some_iff.mp ht
  obtain ⟨s₂, h₂, ht⟩ := Option.bind_eq_some_iff.mp ht
  obtain ⟨hargs, hlast⟩ := hd.2 s₁ h₁
  have hm₂ := (h.setUses hd.1 h₁).invalidate hargs h₂
  cases preserve with
  | false =>
    cases ht
    exact hm₂
  | true =>
    obtain ⟨s₃, h₃, ht⟩ := Option.bind_eq_some_iff.mp ht
    have hm₃ : s₃.Mirror numArgsOf := hm₂.replaceOpcode (fun k _ v => invalidate_gone h₂ k v) h₃
    exact hm₃.setArg (hlast rfl s₂ s₃ h₂ h₃) ht

end

theorem Mirror.fresh (h : ∀ id, (s id).uses = [] ∧
    (s id).args = if (s id).opcode = .phi then [] else List.replicate maxArgs .void) :
      s.Mirror numArgsOf := by
  have hnone : ∀ id k v : ℕ, (s id).args[k]? ≠ some (.inst v) := by
    intro id k v
    rw [(h id).2]
    split_ifs
    · simp
    · simp [List.getElem?_replicate]
  constructor
  · intro v u o
    rw [(h v).1, refers, if_neg (hnone u o v)]
    rfl
  · intro id hid
    rw [(h id).2, if_neg hid]
    exact List.length_replicate
  · exact fun id k _ v => hnone id k v

/-- Every call keeps the mirror, so every run does. -/
theorem Reached.mirror (h : Reached numArgsOf fuel s) : s.Mirror numArgsOf := by
  induction h with
  | fresh h => exact .fresh h
  | setArg _ hd ht ih => exact ih.setArg hd ht
  | addPhiOperand _ hd ht ih => exact ih.addPhiOperand hd ht
  | clearArgs _ hd ht ih => exact ih.clearArgs hd ht
  | invalidate _ hd ht ih => exact ih.invalidate hd ht
  | replaceOpcode _ hd ht ih => exact ih.replaceOpcode hd ht
  | replaceUsesWith _ hd ht ih => exact ih.replaceUsesWith hd ht

/-- An operand of the arguments that count. -/
theorem Mirror.refers_eq (h : s.Mirror numArgsOf) (user operand used : ℕ) :
    s.refers user operand used =
    if operand < s.numArgs numArgsOf user ∧ s.arg user operand = .inst used then 1 else 0 := by
  unfold refers
  by_cases hlt : operand < s.numArgs numArgsOf user
  · simp only [hlt, true_and, @arg_eq_iff s user operand (.inst used) (by simp)]
  · rw [if_neg (h.clean user operand (Nat.le_of_not_lt hlt) used), if_neg (fun hand => hlt hand.1)]

/-- The lists of uses mirror the operands in every run that takes out and puts in direct values. -/
theorem uses_mirror (h : Reached numArgsOf fuel s) :
    (∀ used user operand, (s used).uses.count (user, operand) =
      if operand < s.numArgs numArgsOf user ∧ s.arg user operand = .inst used then 1 else 0) ∧
    ∀ used, (s used).uses = [] ↔
      ∀ user operand, operand < s.numArgs numArgsOf user → s.arg user operand ≠ .inst used := by
  have hcount : ∀ used user operand, (s used).uses.count (user, operand) =
      if operand < s.numArgs numArgsOf user ∧ s.arg user operand = .inst used then 1 else 0 := by
    intro used user operand
    rw [h.mirror.uses, h.mirror.refers_eq]
  constructor
  · exact hcount
  · intro used
    constructor
    · intro hnil user operand hlt harg
      have hone := hcount used user operand
      rw [hnil, if_pos ⟨hlt, harg⟩] at hone
      exact absurd hone (by simp)
    · intro hnone
      apply List.eq_nil_iff_forall_not_mem.mpr
      intro use hmem
      have hzero := hcount used use.1 use.2
      rw [if_neg (fun hand => hnone _ _ hand.1 hand.2)] at hzero
      exact List.count_eq_zero.mp hzero hmem

/-- The arguments of the opcodes below. -/
def sampleNumArgs : Opcode → Fin (maxArgs + 1)
  | .identity | .loadSharedU32 => 1
  | _ => 0

def sampleInsts : Insts := fun _ =>
  { opcode := .loadSharedU32, args := List.replicate maxArgs .void, phiBlocks := [], uses := [] }

theorem uses_mirror_sample : ∃ t, sampleInsts.setArg sampleNumArgs 1 1 0 (.inst 0) = some t ∧
    (t 0).uses = [(1, 0)] ∧ ∀ used, (t used).uses = [] ↔
      ∀ user operand, operand < t.numArgs sampleNumArgs user → t.arg user operand ≠ .inst used := by
  have hset : sampleInsts.setArg sampleNumArgs 1 1 0 (.inst 0) = some _ := rfl
  refine ⟨_, hset, rfl, (uses_mirror (.setArg (.fresh fun _ => ⟨rfl, rfl⟩) ?_ hset)).2⟩
  constructor
  · intro id h
    cases h
  · intro id h
    cases h
    decide

/-- The instruction 1 becomes an identity of 0 and an operand of 2; once 0 is an immediate, 2 gets
another operand, and the use of 1 stays. A later replacement of 1 then overwrites the operand of
2. -/
theorem stale_use : ∃ a b c d e,
    sampleInsts.replaceUsesWith sampleNumArgs 2 1 (.inst 0) true = some a ∧
    a.setArg sampleNumArgs 2 2 0 (.inst 1) = some b ∧
    b.replaceUsesWith sampleNumArgs 2 0 (.u32 5) true = some c ∧
    c.setArg sampleNumArgs 2 2 0 (.u32 7) = some d ∧
    (d 1).uses.count (2, 0) = 1 ∧ d.arg 2 0 = .u32 7 ∧
    d.replaceUsesWith sampleNumArgs 2 1 (.u32 9) true = some e ∧ e.arg 2 0 = .u32 9 :=
  ⟨_, _, _, _, _, rfl, rfl, rfl, rfl, rfl, rfl, rfl, rfl⟩

end Insts

end PS4Droid.Shader.IR
