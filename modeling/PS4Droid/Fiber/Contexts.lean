import PS4Droid.Fiber.Threads

/-!
# Stacks that are attached to fibers

`sceFiberInitializeImpl`, `_sceFiberAttachContext`, the parts of `sceFiberRunImpl` and
`sceFiberSwitchImpl` that can return an error, and `sceFiberGetInfo`, over one fiber and the words
of memory. Pointers are addresses, and a stack does not wrap around the end of the address space.
-/

namespace PS4Droid.Fiber

inductive OrbisFiberError
  | null
  | alignment
  | range
  | invalid
  | permission
  | state
  deriving DecidableEq

def fiberOptSignature : UInt32 := 0xbb40e64d
def fiberStackSignature : UInt64 := 0x7149f2ca7149f2ca
def fiberStackSizeCheck : UInt64 := 0xdeadbeefdeadbeef
def fiberContextMinimumSize : ℕ := 512
def fiberMaxNameLength : ℕ := 31
def fw350 : UInt32 := 0x3500000

namespace FiberFlags

def contextSizeCheck : UInt32 := 0x10
def setFpuRegs : UInt32 := 0x100

end FiberFlags

def hasFlag (flags flag : UInt32) : Bool := flags &&& flag != 0

structure OrbisFiber where
  magicStart : UInt32
  state : FiberState
  entry : ℕ
  argOnInitialize : UInt64
  addrContext : ℕ
  sizeContext : ℕ
  name : List UInt8
  context : ℕ
  flags : UInt32
  contextStart : ℕ
  contextEnd : ℕ
  magicEnd : UInt32

/-- The word at each address that is a multiple of 8. -/
abbrev Memory := ℕ → UInt64

/-- A fiber, the memory, and the `tcb_fiber` of the calling thread. -/
structure World where
  fiber : OrbisFiber
  memory : Memory
  tcbFiber : ℕ

/-- `while (stack_ptr < stack_end) *stack_ptr++ = kFiberStackSizeCheck`. -/
def fillStack (memory : Memory) (ptr stop : ℕ) : Memory :=
  if ptr < stop then fillStack (Function.update memory ptr fiberStackSizeCheck) (ptr + 8) stop
    else memory
termination_by stop - ptr

/-- The signature and, if it is asked for, the fill. -/
def prepareStack (memory : Memory) (start stop : ℕ) (fill : Bool) : Memory :=
  let memory := Function.update memory start fiberStackSignature
  if fill then fillStack memory (start + 8) stop else memory

def attachContext (w : World) (addrContext sizeContext : ℕ) : Except OrbisFiberError World :=
  if sizeContext ≠ 0 ∧ sizeContext < fiberContextMinimumSize then .error .range
  else if sizeContext % 16 ≠ 0 then .error .invalid
  else if addrContext = 0 ∨ sizeContext = 0 then .error .invalid
  else if w.fiber.addrContext ≠ 0 then .error .invalid
  else
    let fiber := { w.fiber with
      addrContext, sizeContext, contextStart := addrContext, contextEnd :=
        addrContext + sizeContext }
    let fill := hasFlag fiber.flags FiberFlags.contextSizeCheck
    .ok { w with
      fiber, memory := prepareStack w.memory addrContext (addrContext + sizeContext) fill }

structure OptParam where
  address : ℕ
  magic : UInt32

/-- The checks of the arguments; a null pointer is `0`. -/
def checkInitialize (fiber name entry addrContext sizeContext : ℕ) (optParam : Option OptParam) :
    Option OrbisFiberError :=
  if fiber = 0 ∨ name = 0 ∨ entry = 0 then some .null
  else if fiber % 8 ≠ 0 ∨ addrContext % 16 ≠ 0 then some .alignment
  else if optParam.any (·.address % 8 != 0) then some .alignment
  else if sizeContext ≠ 0 ∧ sizeContext < fiberContextMinimumSize then some .range
  else if sizeContext % 16 ≠ 0 then some .invalid
  else if addrContext = 0 ∧ sizeContext ≠ 0 then some .invalid
  else if addrContext ≠ 0 ∧ sizeContext = 0 then some .invalid
  else if optParam.any (·.magic != fiberOptSignature) then some .invalid
  else none

/-- `text` is what `name` points to. -/
def sceFiberInitializeImpl (contextSizeCheck : Bool) (old : OrbisFiber) (memory : Memory)
    (fiber name : ℕ)
    (text : List UInt8) (entry : ℕ) (argOnInitialize : UInt64) (addrContext sizeContext : ℕ)
    (optParam : Option OptParam) (flags buildVer : UInt32) :
    Except OrbisFiberError (OrbisFiber × Memory) :=
  match checkInitialize fiber name entry addrContext sizeContext optParam with
  | some e => .error e
  | none =>
    let userFlags := if fw350 ≤ buildVer then flags ||| FiberFlags.setFpuRegs else flags
    let userFlags := if contextSizeCheck then userFlags ||| FiberFlags.contextSizeCheck
      else userFlags
    let initialised := { old with
      magicStart := fiberSignature0, state := .idle, entry, argOnInitialize, addrContext,
        sizeContext,
      name := text.take fiberMaxNameLength, context := 0, flags := userFlags, magicEnd :=
        fiberSignature1 }
    if addrContext ≠ 0 then
      -- The fill looks at the flags of the caller, not at those that are stored.
      let fill := hasFlag flags FiberFlags.contextSizeCheck
      .ok ({ initialised with
          contextStart := addrContext, contextEnd := addrContext + sizeContext },
        prepareStack memory addrContext (addrContext + sizeContext) fill)
    else .ok (initialised, memory)

/-! ### Starting a fiber -/

/-- `sceFiberRunImpl` and `sceFiberSwitchImpl` up to the exchange of the state; behind it neither
returns an error. They differ in what they ask of the thread. -/
def claimFiber (permitted : World → Bool) (fiber addrContext sizeContext : ℕ) (w : World) :
    Option OrbisFiberError × World :=
  if fiber = 0 then (some .null, w)
  else if fiber % 8 ≠ 0 ∨ addrContext % 16 ≠ 0 then (some .alignment, w)
  else if w.fiber.magicStart ≠ fiberSignature0 ∨ w.fiber.magicEnd ≠ fiberSignature1 then
    (some .invalid, w)
  else if !permitted w then (some .permission, w)
  else
    match if addrContext ≠ 0 ∨ sizeContext ≠ 0 then attachContext w addrContext sizeContext
      else .ok w with
    | .error e => (some e, w)
    | .ok w =>
      if w.fiber.state ≠ .idle then (some .state, w)
      else (none, { w with fiber := { w.fiber with state := .run } })

def sceFiberRunImpl (fiber addrContext sizeContext : ℕ) (w : World) :
    Option OrbisFiberError × World :=
  claimFiber (·.tcbFiber == 0) fiber addrContext sizeContext w

def sceFiberSwitchImpl (fiber addrContext sizeContext : ℕ) (w : World) :
    Option OrbisFiberError × World :=
  claimFiber (·.tcbFiber != 0) fiber addrContext sizeContext w

/-- A stack that can be attached is offered for a fiber that is not idle, by a thread that may start
it. -/
structure OffersToBusy (permitted : World → Bool) (fiber addrContext sizeContext : ℕ) (w : World) :
    Prop where
  fiber_ne : fiber ≠ 0
  aligned : fiber % 8 = 0 ∧ addrContext % 16 = 0
  magic : w.fiber.magicStart = fiberSignature0 ∧ w.fiber.magicEnd = fiberSignature1
  permitted_eq : permitted w = true
  addr_ne : addrContext ≠ 0
  size_ge : fiberContextMinimumSize ≤ sizeContext
  size_mod : sizeContext % 16 = 0
  free : w.fiber.addrContext = 0
  busy : w.fiber.state ≠ .idle

section Claims

variable {w w' : World} {fiber addrContext sizeContext : ℕ} {permitted : World → Bool}
  {e : OrbisFiberError}

theorem attachContext_ok (h : attachContext w addrContext sizeContext = .ok w') :
    addrContext ≠ 0 ∧ fiberContextMinimumSize ≤ sizeContext ∧ sizeContext % 16 = 0 ∧
      w.fiber.addrContext = 0 ∧ w'.fiber = { w.fiber with
        addrContext, sizeContext, contextStart := addrContext, contextEnd :=
  addrContext + sizeContext } ∧
      w'.memory = prepareStack w.memory addrContext (addrContext + sizeContext)
        (hasFlag w.fiber.flags FiberFlags.contextSizeCheck) := by
  unfold attachContext at h
  split_ifs at h with h₁ h₂ h₃ h₄
  cases h
  rw [not_or] at h₃
  exact ⟨h₃.1, by omega, by omega, by omega, rfl, rfl⟩

theorem attachContext_of (haddr : addrContext ≠ 0) (hsize : fiberContextMinimumSize ≤ sizeContext)
    (hmod : sizeContext % 16 = 0) (hfree : w.fiber.addrContext = 0) :
    ∃ w', attachContext w addrContext sizeContext = .ok w' := by
  have hpos : sizeContext ≠ 0 := by
    unfold fiberContextMinimumSize at hsize
    omega
  unfold attachContext
  rw [if_neg (by omega), if_neg (by omega), if_neg (by omega), if_neg (by omega)]
  exact ⟨_, rfl⟩

/-- A refused start changes nothing unless it has attached a stack first, to a fiber that then
turned out to be busy. -/
theorem claimFiber_unchanged_iff :
    (∀ e w', claimFiber permitted fiber addrContext sizeContext w = (some e, w') → w' = w) ↔
      ¬OffersToBusy permitted fiber addrContext sizeContext w := by
  constructor
  · intro hsame hoffers
    obtain ⟨w', hattach⟩ :=
      attachContext_of (w := w) hoffers.addr_ne hoffers.size_ge hoffers.size_mod hoffers.free
    obtain ⟨-, -, -, -, hfiber, -⟩ := attachContext_ok hattach
    have hbusy : w'.fiber.state ≠ .idle := by
      rw [hfiber]
      exact hoffers.busy
    have hrun : claimFiber permitted fiber addrContext sizeContext w = (some .state, w') := by
      unfold claimFiber
      rw [if_neg hoffers.fiber_ne, if_neg (by have := hoffers.aligned; omega),
        if_neg (by simp [hoffers.magic]),
        if_neg (by simp [hoffers.permitted_eq]), if_pos (.inl hoffers.addr_ne), hattach]
      exact if_pos hbusy
    have heq := congrArg (·.fiber.addrContext) (hsame _ _ hrun)
    simp only [hfiber, hoffers.free] at heq
    exact hoffers.addr_ne heq
  · intro hoffers e w' hrun
    unfold claimFiber at hrun
    split_ifs at hrun with h₁ h₂ h₃ h₄ h₅
    all_goals first | exact (Prod.mk.inj hrun).2.symm | skip
    · cases hattach : attachContext w addrContext sizeContext with
      | error e' =>
        rw [hattach] at hrun
        exact (Prod.mk.inj hrun).2.symm
      | ok w₁ =>
        obtain ⟨haddr, hsize, hmod, hfree, hfiber, -⟩ := attachContext_ok hattach
        have hstate : w₁.fiber.state = w.fiber.state := by rw [hfiber]
        simp only [hattach, hstate] at hrun
        split_ifs at hrun with hbusy
        · exact absurd ⟨h₁, by omega, by simpa using h₃, by simpa using h₄, haddr, hsize, hmod,
            hfree, hbusy⟩ hoffers
        · cases hrun
    · dsimp only at hrun
      split_ifs at hrun
      · exact (Prod.mk.inj hrun).2.symm
      · cases hrun

/-- A refused `sceFiberRunImpl` or `sceFiberSwitchImpl` leaves the fiber, the memory and the context
of the thread alone, except when it offers a stack to a busy fiber. -/
theorem refused_start_unchanged (fiber addrContext sizeContext : ℕ) (w : World) :
    ((∀ e w', sceFiberRunImpl fiber addrContext sizeContext w = (some e, w') → w' = w) ↔
      ¬OffersToBusy (·.tcbFiber == 0) fiber addrContext sizeContext w) ∧
    ((∀ e w', sceFiberSwitchImpl fiber addrContext sizeContext w = (some e, w') → w' = w) ↔
      ¬OffersToBusy (·.tcbFiber != 0) fiber addrContext sizeContext w) :=
  ⟨claimFiber_unchanged_iff, claimFiber_unchanged_iff⟩

end Claims

/-- A fiber that runs on the stack of a thread. -/
def runningFiber : OrbisFiber :=
  { magicStart := fiberSignature0, state := .run, entry := 0x1000, argOnInitialize := 0,
    addrContext := 0, sizeContext := 0, name := [], context := 0, flags := 0,
    contextStart := 0, contextEnd := 0, magicEnd := fiberSignature1 }

/-- Another thread offers it a stack, is refused, and the stack stays attached. -/
theorem refused_start_attaches :
    (sceFiberRunImpl 0x2000 0x4000 0x200 ⟨runningFiber, fun _ => 0, 0⟩).1 = some .state ∧
      (sceFiberRunImpl 0x2000 0x4000 0x200 ⟨runningFiber, fun _ => 0, 0⟩).2.fiber.addrContext =
        0x4000 ∧
      runningFiber.addrContext = 0 := by
  decide

end PS4Droid.Fiber
