import PS4Droid.Memory.Labels
import PS4Droid.Memory.Search

/-!
# What a protection change asks of the host

`Protect` stores the requested protection in the areas of a range and hands permissions derived from
it to the host. The permissions are kept next to the memory manager, one set of flags for each
address.
-/

namespace PS4Droid.Memory

open OrderedMap IntervalMap Segments MemoryManager

namespace MemoryProt

def gpuWrite : UInt32 := 32

end MemoryProt

/-! `Core::MemoryPermission` is a `u32` bit set as well. -/

namespace MemoryPermission

def read : UInt32 := 1
def write : UInt32 := 2
def readWrite : UInt32 := 3
def execute : UInt32 := 4

end MemoryPermission

/-- The flags of `value` if the protection has one of `flag`. -/
def whenFlag (prot flag value : UInt32) : UInt32 := if hasFlag prot flag then value else 0

/-- The permissions that `ProtectBytes` derives from the protection. -/
def hostPermissions (prot : UInt32) : UInt32 :=
  let prot := appendRead prot
  whenFlag prot MemoryProt.cpuRead MemoryPermission.read |||
  whenFlag prot MemoryProt.cpuReadWrite MemoryPermission.readWrite |||
  whenFlag prot MemoryProt.cpuExec MemoryPermission.execute |||
  whenFlag prot MemoryProt.gpuRead MemoryPermission.read |||
  whenFlag prot MemoryProt.gpuWrite MemoryPermission.write |||
  whenFlag prot MemoryProt.gpuReadWrite MemoryPermission.readWrite

def hostPage : ℕ := 0x1000

/-- The memory manager with the permissions of the host. -/
structure ProtectedMemory where
  memory : MemoryManager
  permissions : ℕ → UInt32

namespace ProtectedMemory

/-- `AddressSpace::Protect`: `mprotect` refuses an address inside a page and reaches to the end of
its last page. -/
def protectPages (permissions : ℕ → UInt32) (addr size : ℕ) (perms : UInt32) :
    Except Fault (ℕ → UInt32) := do
  require (addr % hostPage = 0) .mprotectFailed
  return fun x => if addr ≤ x ∧ x < roundUp (addr + size) hostPage then perms else permissions x

variable (m : ProtectedMemory)

/-- Reserved areas only change in the map, and the host is left alone when the protection stays as
it was. -/
def protectBytes (addr : ℕ) (vma : VirtualMemoryArea) (size : ℕ) (prot : UInt32) :
    Except Fault (ProtectedMemory × ℕ) := do
  let (memory, adjustedSize) ← m.memory.protectBytes addr vma size prot
  if vma.type = .free ∨ vma.type = .poolReserved then
    return ({ m with memory }, adjustedSize)
  else do
    -- The type is read from the node of the area again, which may have been merged away by now.
    let vmaBase ← deref (get? memory.vmaMap vma.base)
    if vmaBase.type ≠ .reserved ∧ prot ≠ vma.prot then do
      let permissions ← protectPages m.permissions addr adjustedSize (hostPermissions prot)
      return ({ memory, permissions }, adjustedSize)
    else
      return ({ m with memory }, adjustedSize)

def protectLoop (addr size : ℕ) (prot : UInt32) :
    ℕ → ProtectedMemory → ℕ → Except Fault (ProtectedMemory × Status)
  | 0, _, _ => .error .divergence
  | fuel + 1, m, protectedBytes =>
    if protectedBytes < size then do
      let (_, vma) ← m.memory.findVMA (add64 addr protectedBytes)
      let protectedBytes := if vma.base > add64 addr protectedBytes then
          add64 protectedBytes (sub64 vma.base (add64 addr protectedBytes))
        else
          protectedBytes
      let (m, result) ← m.protectBytes (add64 addr protectedBytes) vma
        (sub64 size protectedBytes) prot
      if result ≥ 2 ^ 63 then
        return (m, .raw (result % 2 ^ 32))
      else
        protectLoop addr size prot fuel m (add64 protectedBytes result)
    else
      return (m, .ok)

/-- `Protect`; the flags that it restricts to the known ones are not used any further. -/
def protect (addr size : ℕ) (prot : UInt32) : Except Fault (ProtectedMemory × Status) :=
  if size = 0 then
    return (m, .ok)
  else do
    m.memory.requireValidMapping addr size
    protectLoop addr size prot loopBound m 0

end ProtectedMemory

/-! ### Flags -/

theorem hasFlag_or (a b flag : UInt32) :
    hasFlag (a ||| b) flag = (hasFlag a flag || hasFlag b flag) := by
  have hsplit : (a ||| b) &&& flag = (a &&& flag) ||| (b &&& flag) := by
    rw [← UInt32.toBitVec_inj]
    exact BitVec.and_or_distrib_right
  unfold hasFlag
  rw [hsplit, Bool.eq_iff_iff, Bool.or_eq_true, bne_iff_ne, bne_iff_ne, bne_iff_ne, ne_eq,
    UInt32.or_eq_zero_iff, not_and_or]

theorem hasFlag_flags (a flag other : UInt32) :
    hasFlag a (flag ||| other) = (hasFlag a flag || hasFlag a other) := by
  have hcomm : ∀ a b : UInt32, hasFlag a b = hasFlag b a := fun a b => by
    rw [hasFlag, hasFlag, UInt32.and_comm]
  rw [hcomm, hasFlag_or, hcomm flag, hcomm other]

theorem hasFlag_and (a mask flag : UInt32) :
    hasFlag (a &&& mask) flag = hasFlag a (mask &&& flag) := by
  rw [hasFlag, hasFlag, UInt32.and_assoc]

theorem hasFlag_zero (flag : UInt32) : hasFlag 0 flag = false := by
  rw [hasFlag, UInt32.zero_and]
  rfl

theorem hasFlag_whenFlag (prot flag value f : UInt32) :
    hasFlag (whenFlag prot flag value) f = (hasFlag prot flag && hasFlag value f) := by
  unfold whenFlag
  cases hasFlag prot flag with
  | true => rfl
  | false => exact hasFlag_zero f

theorem hasFlag_appendRead (prot flag : UInt32) : hasFlag (appendRead prot) flag =
      (hasFlag prot flag ||
        (hasFlag prot MemoryProt.cpuWrite && hasFlag MemoryProt.cpuRead flag)) := by
  unfold appendRead
  cases hwrite : hasFlag prot MemoryProt.cpuWrite with
  | true => rw [if_pos rfl, hasFlag_or, Bool.true_and]
  | false => rw [if_neg (by decide), Bool.false_and, Bool.or_false]

/-- The protections that ask for reading, and for writing. -/
def readFlags : UInt32 := MemoryProt.cpuReadWrite ||| MemoryProt.gpuReadWrite

def writeFlags : UInt32 := MemoryProt.cpuWrite ||| MemoryProt.gpuWrite

/-- The host permissions allow no more than the protection asks for, and execution exactly if it
does. -/
structure Grants (prot permissions : UInt32) : Prop where
  read : hasFlag permissions MemoryPermission.read = true → hasFlag prot readFlags = true
  write : hasFlag permissions MemoryPermission.write = true → hasFlag prot writeFlags = true
  execute : hasFlag permissions MemoryPermission.execute = true ↔
    hasFlag prot MemoryProt.cpuExec = true

/-- The protection has only known bits. -/
def InMask (prot : UInt32) : Prop :=
  hasFlag prot (~~~(MemoryProt.cpuReadWrite ||| MemoryProt.cpuExec ||| MemoryProt.gpuReadWrite)) =
    false

instance (prot : UInt32) : Decidable (InMask prot) := by
  unfold InMask
  infer_instance

/-- A protection that asks for reading asks for writing, too. -/
def WritesIfReads (prot : UInt32) : Prop :=
  hasFlag prot (MemoryProt.cpuRead ||| MemoryProt.gpuRead) = true → hasFlag prot writeFlags = true

/-- Each flag of the host permissions in terms of the flags of the protection. -/
theorem hasFlag_hostPermissions (prot flag : UInt32) : hasFlag (hostPermissions prot) flag =
    ((hasFlag (appendRead prot) MemoryProt.cpuRead && hasFlag MemoryPermission.read flag) ||
    (hasFlag (appendRead prot) MemoryProt.cpuReadWrite &&
      hasFlag MemoryPermission.readWrite flag) ||
    (hasFlag (appendRead prot) MemoryProt.cpuExec && hasFlag MemoryPermission.execute flag) ||
    (hasFlag (appendRead prot) MemoryProt.gpuRead && hasFlag MemoryPermission.read flag) ||
    (hasFlag (appendRead prot) MemoryProt.gpuWrite && hasFlag MemoryPermission.write flag) ||
    (hasFlag (appendRead prot) MemoryProt.gpuReadWrite &&
      hasFlag MemoryPermission.readWrite flag)) := by
  unfold hostPermissions
  simp only [hasFlag_or, hasFlag_whenFlag]

theorem hasFlag_combined (prot : UInt32) :
    hasFlag prot MemoryProt.cpuReadWrite =
      (hasFlag prot MemoryProt.cpuRead || hasFlag prot MemoryProt.cpuWrite) ∧
    hasFlag prot MemoryProt.gpuReadWrite =
      (hasFlag prot MemoryProt.gpuRead || hasFlag prot MemoryProt.gpuWrite) :=
  ⟨hasFlag_flags prot MemoryProt.cpuRead MemoryProt.cpuWrite,
    hasFlag_flags prot MemoryProt.gpuRead MemoryProt.gpuWrite⟩

theorem hostPermissions_flags (prot : UInt32) :
    hasFlag (hostPermissions prot) MemoryPermission.read = hasFlag prot readFlags ∧
    hasFlag (hostPermissions prot) MemoryPermission.write = hasFlag prot readFlags ∧
    hasFlag (hostPermissions prot) MemoryPermission.execute = hasFlag prot MemoryProt.cpuExec := by
  obtain ⟨hcpu, hgpu⟩ := hasFlag_combined prot
  have hreads : hasFlag prot readFlags =
    (hasFlag prot MemoryProt.cpuReadWrite || hasFlag prot MemoryProt.gpuReadWrite) :=
    hasFlag_flags prot _ _
  rw [hasFlag_hostPermissions, hasFlag_hostPermissions, hasFlag_hostPermissions, hreads]
  simp only [hasFlag_appendRead, hcpu, hgpu]
  -- Only the flags of the protection are left.
  generalize hasFlag prot MemoryProt.cpuRead = cpuRead
  generalize hasFlag prot MemoryProt.cpuWrite = cpuWrite
  generalize hasFlag prot MemoryProt.cpuExec = cpuExec
  generalize hasFlag prot MemoryProt.gpuRead = gpuRead
  generalize hasFlag prot MemoryProt.gpuWrite = gpuWrite
  revert cpuRead cpuWrite cpuExec gpuRead gpuWrite
  decide

/-- What the host is handed fits the protection exactly when it asks for writing whenever it asks
for reading. -/
theorem grants_hostPermissions (prot : UInt32) : Grants prot (hostPermissions prot) ↔
    WritesIfReads prot := by
  obtain ⟨hread, hwrite, hexec⟩ := hostPermissions_flags prot
  obtain ⟨hcpu, hgpu⟩ := hasFlag_combined prot
  have hreads : hasFlag prot readFlags = true ↔
      hasFlag prot (MemoryProt.cpuRead ||| MemoryProt.gpuRead) = true ∨
        hasFlag prot writeFlags = true := by
    rw [readFlags, writeFlags, hasFlag_flags, hasFlag_flags, hasFlag_flags, hcpu, hgpu]
    simp only [Bool.or_eq_true]
    tauto
  constructor
  · intro h hasks
    exact h.write (hwrite.trans (hreads.mpr (.inl hasks)))
  · intro h
    refine ⟨fun hr => hread ▸ hr, fun hw => ?_, by rw [hexec]⟩
    rw [hwrite] at hw
    exact (hreads.mp hw).elim h id

theorem inMask_protectedBits (type : VMAType) (prot : UInt32) : InMask (protectedBits type prot) ↔
    InMask prot := by
  have happend : InMask (appendRead prot) ↔ InMask prot := by
    rw [InMask, InMask, hasFlag_appendRead]
    have : hasFlag MemoryProt.cpuRead
        (~~~(MemoryProt.cpuReadWrite ||| MemoryProt.cpuExec ||| MemoryProt.gpuReadWrite)) =
          false := by decide
    rw [this, Bool.and_false, Bool.or_false]
  unfold protectedBits
  dsimp only
  split_ifs
  · rw [← happend, InMask, InMask, hasFlag_and]
    rfl
  · exact happend

/-! ### Labels and permissions of a protected range -/

def Label.isMapped (label : Label) : Bool :=
  label.type != .free && label.type != .reserved && label.type != .poolReserved

/-- The label behind a protection change. -/
def protects (prot : UInt32) (label : Label) : Label :=
  if label.type = .free ∨ label.type = .poolReserved then label
  else { label with prot := protectedBits label.type prot }

theorem protects_type (prot : UInt32) (label : Label) :
    (protects prot label).type = label.type := by
  unfold protects
  split_ifs <;> rfl

/-- The host permissions behind a protection change. -/
def permitted (prot : UInt32) (label : Option Label) (old : UInt32) : UInt32 :=
  if ∃ l ∈ label, l.isMapped = true ∧ prot ≠ l.prot then hostPermissions prot else old

theorem permitted_some (prot : UInt32) (label : Label) (old : UInt32) :
    permitted prot (some label) old =
    if label.isMapped = true ∧ prot ≠ label.prot then hostPermissions prot else old := by
  simp only [permitted, Option.mem_def, Option.some.injEq, exists_eq_left']

namespace ProtectedMemory

variable {m m' m₁ : ProtectedMemory} {addr size n : ℕ} {prot : UInt32}

def labelAt (m : ProtectedMemory) (x : ℕ) : Option Label := m.memory.vmaMap.labelAt x

/-- The protection of `[addr, addr + size)` has been changed. -/
structure Protects (m : ProtectedMemory) (addr size : ℕ) (prot : UInt32) (m' : ProtectedMemory) :
    Prop where
  labels : VMAMap.Relabels m.memory.vmaMap addr size (protects prot) m'.memory.vmaMap
  permissions : ∀ x, m'.permissions x =
    if addr ≤ x ∧ x < addr + size then permitted prot (m.labelAt x) (m.permissions x)
      else m.permissions x

theorem Protects.nil (hv : VMAMap.SoundMap m.memory.vmaMap) (addr : ℕ) (prot : UInt32) :
    Protects m addr 0 prot m :=
  ⟨.nil hv addr _, fun x => by rw [if_neg (by omega)]⟩

theorem Protects.append {n' : ℕ} (h₁ : Protects m addr n prot m₁)
    (h₂ : Protects m₁ (addr + n) n' prot m') :
    Protects m addr (n + n') prot m' := by
  refine ⟨h₁.labels.append h₂.labels, fun x => ?_⟩
  rw [h₂.permissions, h₁.permissions, labelAt, h₁.labels.labels]
  by_cases hx : addr ≤ x ∧ x < addr + n
  · rw [if_neg (by omega), if_pos hx, if_pos (by omega)]
  · rw [if_neg hx, if_neg hx]
    by_cases hx' : addr + n ≤ x ∧ x < addr + n + n'
    · rw [if_pos hx', if_pos (by omega), labelAt]
    · rw [if_neg hx', if_neg (by omega)]

/-! ### What a step needs -/

/-- Merging the changed piece with the area in front of it erases the node of the area. -/
def Erases (map : VMAMap) (addr n : ℕ) (prot : UInt32) (e : ℕ × VirtualMemoryArea) : Prop :=
  addr = e.1 ∧ ∃ p, prev map e.1 = some p ∧ p.2.canMergeWith
    { VMAMap.carved e.1 e.2 addr n with prot := protectedBits e.2.type prot } = .ok true

/-- The host is told of the change. -/
def Told (v : VirtualMemoryArea) (prot : UInt32) : Prop :=
  v.type ≠ .free ∧ v.type ≠ .poolReserved ∧ v.type ≠ .reserved ∧ prot ≠ v.prot

/-- The node of the area survives the step, and on the host page in which the piece ends the bytes
behind it already have the permissions that the host is told. -/
structure StepFits (m : ProtectedMemory) (addr n : ℕ) (prot : UInt32)
    (e : ℕ × VirtualMemoryArea) : Prop where
  kept : ¬(e.2.type = .free ∨ e.2.type = .poolReserved) → ¬Erases m.memory.vmaMap addr n prot e
  pages : 0 < n → Told e.2 prot → ∀ x, addr + n ≤ x → x < roundUp (addr + n) hostPage →
    m.permissions x = hostPermissions prot

/-- Every step of the loop fits in the state it is made in. -/
def LoopFits (addr size : ℕ) (prot : UInt32) : ℕ → ProtectedMemory → ℕ → Prop
  | 0, _, _ => True
  | fuel + 1, m, done => done < size → ∀ e, m.memory.findVMA (add64 addr done) = .ok e →
    m.StepFits (add64 addr done) (min (e.1 + e.2.size - add64 addr done) (sub64 size done)) prot e ∧
    ∀ m' n, m.protectBytes (add64 addr done) e.2 (sub64 size done) prot = .ok (m', n) →
      LoopFits addr size prot fuel m' (add64 done n)

/-! ### The memory manager in a protection change -/

variable {v : VirtualMemoryArea} {fuel x : ℕ} {status : Status}

theorem protectBytes_memory (h : m.protectBytes addr v size prot = .ok (m', n)) :
    m.memory.protectBytes addr v size prot = .ok (m'.memory, n) := by
  obtain ⟨⟨memory, n₁⟩, hbytes, h⟩ := bind_ok h
  dsimp only at h
  by_cases hskip : v.type = .free ∨ v.type = .poolReserved
  · rw [if_pos hskip] at h
    cases h
    exact hbytes
  · rw [if_neg hskip] at h
    obtain ⟨vmaBase, -, h⟩ := bind_ok h
    by_cases htold : vmaBase.type ≠ .reserved ∧ prot ≠ v.prot
    · rw [if_pos htold] at h
      obtain ⟨permissions, -, h⟩ := bind_ok h
      cases h
      exact hbytes
    · rw [if_neg htold] at h
      cases h
      exact hbytes

theorem protectLoop_memory (h : protectLoop addr size prot fuel m n = .ok (m', status)) :
    m.memory.protectLoop addr size prot fuel n = .ok (m'.memory, status) := by
  induction fuel generalizing m n with
  | zero => cases h
  | succ fuel ih =>
    unfold protectLoop at h
    unfold MemoryManager.protectLoop
    by_cases hmore : n < size
    · rw [if_pos hmore] at h ⊢
      obtain ⟨⟨k, v⟩, hf, h⟩ := bind_ok h
      obtain ⟨⟨m₁, result⟩, hbytes, h⟩ := bind_ok h
      rw [hf, ok_bind]
      dsimp only at hbytes h ⊢
      rw [protectBytes_memory hbytes, ok_bind]
      dsimp only
      by_cases hneg : result ≥ 2 ^ 63
      · rw [if_pos hneg] at h ⊢
        cases h
        rfl
      · rw [if_neg hneg] at h ⊢
        exact ih h
    · rw [if_neg hmore] at h ⊢
      cases h
      rfl

/-- Without the permissions it is the call of the memory manager. -/
theorem protect_memory (h : m.protect addr size prot = .ok (m', status)) :
    m.memory.protect addr size prot = .ok (m'.memory, status) := by
  unfold protect at h
  unfold MemoryManager.protect
  split_ifs at h ⊢
  · cases h
    rfl
  · obtain ⟨_, hvalid, h⟩ := bind_ok h
    rw [hvalid, ok_bind]
    exact protectLoop_memory h

/-! ### One step of the loop -/

theorem protectPages_eq {permissions permissions' : ℕ → UInt32} {perms : UInt32}
    (h : protectPages permissions addr n perms = .ok permissions')
    (hpages : ∀ x, addr + n ≤ x → x < roundUp (addr + n) hostPage → permissions x = perms) (x : ℕ) :
    permissions' x = if addr ≤ x ∧ x < addr + n then perms else permissions x := by
  obtain ⟨_, -, h⟩ := bind_ok h
  cases h
  have hend := le_roundUp (addr + n) (show 0 < hostPage by decide)
  dsimp only
  by_cases hin : addr ≤ x ∧ x < addr + n
  · rw [if_pos ⟨hin.1, by omega⟩, if_pos hin]
  · rw [if_neg hin]
    split_ifs with hpage
    · exact (hpages x (by omega) hpage.2).symm
    · rfl

theorem protectBytes_protects {k : ℕ} (hs : m.memory.Sound)
    (hmem : (k, v) ∈ m.memory.vmaMap) (hin : k ≤ addr ∧ addr < k + v.size) (hsize : size < 2 ^ 64)
    (hpages : Told v prot → ∀ x, addr + min (k + v.size - addr) size ≤ x →
      x < roundUp (addr + min (k + v.size - addr) size) hostPage →
      m.permissions x = hostPermissions prot)
    (h : m.protectBytes addr v size prot = .ok (m', n)) :
    n = min (k + v.size - addr) size ∧ Protects m addr n prot m' := by
  have hbase : v.base = k := hs.vma.keyed _ hmem
  have hbound : v.base + v.size < 2 ^ 64 := (hs.vma.wf _ hmem).bounded
  have hsub : sub64 v.size (sub64 addr v.base) = k + v.size - addr := by
    rw [hbase, sub64_eq (a := addr) (by omega) (by omega), sub64_eq (by omega) (by omega)]
    omega
  have hlabel : ∀ x, addr ≤ x ∧ x < addr + min (k + v.size - addr) size →
      m.labelAt x = some (v.label 0) :=
        fun x hx => VMAMap.labelAt_mem hs.vma hmem (by simp only; omega)
  have hmapped : (v.label 0).isMapped = true ∧ prot ≠ (v.label 0).prot ↔ Told v prot := by
    simp only [VirtualMemoryArea.label, Label.isMapped, Bool.and_eq_true, bne_iff_ne, Told]
    tauto
  -- Where the host is not told, no byte asks for new permissions.
  have huntold : ¬Told v prot → ∀ x, m.permissions x =
      if addr ≤ x ∧ x < addr + min (k + v.size - addr) size then
        permitted prot (m.labelAt x) (m.permissions x)
      else m.permissions x := by
    intro hnot x
    split_ifs with hx
    · rw [hlabel x hx, permitted_some, if_neg fun h => hnot (hmapped.mp h)]
    · rfl
  obtain ⟨⟨memory, n₁⟩, hbytes, h⟩ := bind_ok h
  unfold MemoryManager.protectBytes at hbytes
  dsimp only at hbytes h
  rw [hsub] at hbytes
  by_cases hskip : v.type = .free ∨ v.type = .poolReserved
  · rw [if_pos hskip] at hbytes h
    cases hbytes
    cases h
    refine ⟨rfl, ⟨hs.vma, fun x => ?_⟩, huntold fun h => ?_⟩
    · by_cases hx : addr ≤ x ∧ x < addr + min (k + v.size - addr) size
      · have hx' := hlabel x hx
        rw [labelAt] at hx'
        have hskip' : (v.label 0).type = .free ∨ (v.label 0).type = .poolReserved := hskip
        rw [if_pos hx, hx', Option.map_some, protects, if_pos hskip']
      · rw [if_neg hx]
    · exact hskip.elim h.1 h.2.1
  · rw [if_neg hskip] at hbytes h
    obtain ⟨vmaMap, hretype, hbytes⟩ := bind_ok hbytes
    cases hbytes
    obtain ⟨current, hcurrent, h⟩ := bind_ok h
    have hkeeps : VMAMap.KeepsCells ({ · with prot := protectedBits v.type prot }) :=
      ⟨⟨fun _ => rfl, fun _ => rfl⟩, fun _ => rfl, fun _ => rfl⟩
    have hskip' : ¬((v.label 0).type = .free ∨ (v.label 0).type = .poolReserved) := hskip
    have hlabels : VMAMap.Relabels m.memory.vmaMap addr (min (k + v.size - addr) size)
        (protects prot) vmaMap := by
      refine VMAMap.retype_relabels hs.vma (by omega) (by omega) hretype
        hkeeps.toReattributes (fun _ => hkeeps.sound) fun k' v' a hmem' hp ha => ?_
      cases VMAMap.part_unique hs.vma hmem hmem' hp hin
      rw [ha, protects, if_neg hskip']
      exact congrArg (fun label : Label => { label with prot := protectedBits v.type prot }) ha
    have htype : current.type = v.type := by
      obtain ⟨l, r, ha⟩ := deref_get?_around hlabels.sound.sorted hcurrent
      have hold : m.memory.vmaMap.labelAt k = some (v.label 0) :=
        VMAMap.labelAt_mem hs.vma hmem (by simp only; omega)
      have hnew := hlabels.labels k
      rw [hold, VMAMap.labelAt_mem hlabels.sound ha.mem (x := k)
        ⟨hbase.le, by have := hlabels.sound.tiling.pos _ ha.mem; simp at this ⊢; omega⟩] at hnew
      have htypes : (current.label 0).type = (v.label 0).type := by
        split_ifs at hnew
        · rw [Option.some.inj hnew, protects_type]
        · rw [Option.some.inj hnew]
      exact htypes
    rw [htype] at h
    by_cases htold : v.type ≠ .reserved ∧ prot ≠ v.prot
    · rw [if_pos htold] at h
      obtain ⟨permissions, hperms, h⟩ := bind_ok h
      cases h
      have htold' : Told v prot := ⟨fun h => hskip (.inl h), fun h => hskip (.inr h), htold⟩
      refine ⟨rfl, hlabels, fun x => ?_⟩
      refine (protectPages_eq hperms (hpages htold') x).trans ?_
      split_ifs with hx
      · rw [hlabel x hx, permitted_some, if_pos (hmapped.mpr htold')]
      · rfl
    · rw [if_neg htold] at h
      cases h
      exact ⟨rfl, hlabels, huntold fun h => htold h.2.2⟩

theorem protectLoop_protects (hs : m.memory.Sound) (hlow : m.memory.LowAddresses)
    (hcov : m.memory.Covered (addr + n) (size - n)) (hend : addr + size < 2 ^ 64) (hn : n ≤ size)
    (hfits : LoopFits addr size prot fuel m n)
    (h : protectLoop addr size prot fuel m n = .ok (m', status)) :
    Protects m (addr + n) (size - n) prot m' := by
  induction fuel generalizing m n with
  | zero => cases h
  | succ fuel ih =>
    unfold protectLoop at h
    by_cases hmore : n < size
    · rw [if_pos hmore] at h
      obtain ⟨⟨k, v⟩, hf, h⟩ := bind_ok h
      obtain ⟨⟨m₁, n₁⟩, hbytes, h⟩ := bind_ok h
      have hcur : add64 addr n = addr + n := add64_eq (by omega)
      rw [hcur] at hf
      obtain ⟨hmem, hbase, hle, hlt, -⟩ := findVMA_covered hs (hcov _ ⟨le_rfl, by omega⟩) hf
      have hgap : ¬v.base > add64 addr n := by omega
      dsimp only at hbytes h
      rw [if_neg hgap] at hbytes h
      obtain ⟨hstepFits, hrestFits⟩ := hfits hmore _ (hcur ▸ hf)
      rw [hcur, sub64_eq (by omega) (by omega)] at hbytes hstepFits hrestFits
      obtain ⟨hn₁, hstep⟩ := protectBytes_protects hs hmem ⟨hle, hlt⟩ (by omega)
        (hstepFits.pages (by dsimp only; omega)) hbytes
      have hsame := protectBytes_same hs (by omega) (by omega) (protectBytes_memory hbytes)
      have hlast := hlow _ (hcov (addr + n + (size - n - 1)) ⟨by omega, by omega⟩)
      by_cases hneg : n₁ ≥ 2 ^ 63
      · -- A negative count ends the loop, but such a step has reached the end.
        rw [if_pos hneg] at h
        cases h
        rwa [show n₁ = size - n by omega] at hstep
      · have hfits₁ := hrestFits _ _ hbytes
        rw [add64_eq (by omega)] at hfits₁
        rw [if_neg hneg, add64_eq (by omega)] at h
        have hcov₁ : m₁.memory.Covered (addr + (n + n₁)) (size - (n + n₁)) := fun x hx => by
          rw [hsame.cell]
          exact hcov x (by omega)
        have hlow₁ : m₁.memory.LowAddresses := fun x hx => hlow x (hsame.cell x ▸ hx)
        have hrest := ih hsame.sound hlow₁ hcov₁ (by omega) hfits₁ h
        have : Protects _ _ (n₁ + (size - (n + n₁))) prot m' :=
          hstep.append (by rwa [Nat.add_assoc])
        rwa [show n₁ + (size - (n + n₁)) = size - n by omega] at this
    · rw [if_neg hmore] at h
      cases h
      rw [show size - n = 0 by omega]
      exact .nil hs.vma _ _

/-! ### A range that starts in no area -/

/-- Where the map changes, the piece is a part of the area that was found. -/
theorem protectBytes_carves {k : ℕ} {memory : MemoryManager} (hs : m.memory.Sound)
    (haddr : addr < 2 ^ 64) (hsize : size < 2 ^ 64) (hf : m.memory.findVMA addr = .ok (k, v))
    (hskip : ¬(v.type = .free ∨ v.type = .poolReserved))
    (h : m.memory.protectBytes addr v size prot = .ok (memory, n)) :
    addr < k + v.size ∧ n = min (k + v.size - addr) size ∧
      ∃ l r, Around m.memory.vmaMap l (k, v) r ∧ Part k v.size addr n ∧ VMAMap.retype
        m.memory.vmaMap addr n ({ · with prot := protectedBits v.type prot }) =
          .ok memory.vmaMap := by
  unfold MemoryManager.protectBytes at h
  dsimp only at h
  rw [if_neg hskip] at h
  obtain ⟨vmaMap, hretype, h⟩ := bind_ok h
  cases h
  obtain ⟨⟨m₁, h₁⟩, hcarve, -⟩ := bind_ok hretype
  obtain ⟨-, l, k', w, r, ha, hp, -⟩ := VMAMap.carveWith_shape vmaKind_sound (fun _ h => h.bounded)
    hs.vma haddr (by omega) hcarve
  have hpos := hp.pos
  have hstop := hp.stop
  obtain ⟨rfl, rfl⟩ := findVMA_part hs ha.mem hp ⟨le_rfl, by omega⟩ hf
  have hbase : w.base = k' := hs.vma.keyed _ ha.mem
  have hbound : w.base + w.size < 2 ^ 64 := (hs.vma.wf _ ha.mem).bounded
  have hstart := hp.start
  refine ⟨by omega, ?_, l, r, ha, hp, hretype⟩
  rw [hbase, sub64_eq (a := addr) (by omega) (by omega), sub64_eq (by omega) (by omega)]
  omega

theorem protectBytes_behind {k : ℕ} (hs : m.memory.Sound) (haddr : addr < 2 ^ 64)
    (hsize : size < 2 ^ 64) (hf : m.memory.findVMA addr = .ok (k, v)) (hbehind : k + v.size ≤ addr)
    (h : m.protectBytes addr v size prot = .ok (m', n)) :
    m' = m ∧ n = min (sub64 v.size (sub64 addr v.base)) size := by
  obtain ⟨⟨memory, n₁⟩, hbytes, h⟩ := bind_ok h
  dsimp only at h
  by_cases hskip : v.type = .free ∨ v.type = .poolReserved
  · unfold MemoryManager.protectBytes at hbytes
    dsimp only at hbytes
    rw [if_pos hskip] at hbytes h
    cases hbytes
    cases h
    exact ⟨rfl, rfl⟩
  · -- Nothing can be carved there.
    obtain ⟨hin, -⟩ := protectBytes_carves hs haddr hsize hf hskip hbytes
    omega

theorem protectLoop_behind {k : ℕ} (hs : m.memory.Sound)
    (haddr : addr < 2 ^ 64) (hsize : size < 2 ^ 64) (hbase : v.base = k)
    (hf : ∀ x, k ≤ x ∧ x ≤ addr → m.memory.findVMA x = .ok (k, v))
    (hcur : k + v.size ≤ add64 addr n ∧ add64 addr n ≤ addr)
    (h : protectLoop addr size prot fuel m n = .ok (m', status)) : m' = m := by
  induction fuel generalizing n with
  | zero => cases h
  | succ fuel ih =>
    unfold protectLoop at h
    by_cases hmore : n < size
    · rw [if_pos hmore, hf _ ⟨by omega, hcur.2⟩, ok_bind] at h
      have hgap : ¬v.base > add64 addr n := by omega
      dsimp only at h
      rw [if_neg hgap] at h
      obtain ⟨⟨m₁, n₁⟩, hbytes, hrest⟩ := bind_ok h
      obtain ⟨rfl, hn₁⟩ :=
        protectBytes_behind hs (by omega) (sub64_lt _ _) (hf _ ⟨by omega, hcur.2⟩) hcur.1 hbytes
      rw [hbase, sub64_eq (a := add64 addr n) (by omega) (by omega),
        sub64_eq (a := size) hsize hmore.le] at hn₁
      dsimp only at hrest
      split_ifs at hrest with hneg
      · cases hrest
        rfl
      · by_cases hdone : n₁ = size - n
        · rw [add64_eq (by omega), show n + n₁ = size by omega] at hrest
          cases fuel with
          | zero => cases hrest
          | succ fuel =>
            unfold protectLoop at hrest
            rw [if_neg (lt_irrefl _)] at hrest
            cases hrest
            rfl
        · -- The next step is at the end of the area.
          refine ih ?_ hrest
          have hnext : add64 addr (add64 n n₁) = k + v.size := by
            rw [add64_eq (a := n) (by omega)]
            unfold sub64 add64 at hn₁
            unfold add64 at hcur ⊢
            omega
          omega
    · rw [if_neg hmore] at h
      cases h
      rfl

theorem protect_uncovered (hs : m.memory.Sound) (haddr : addr < 2 ^ 64) (hsize : size < 2 ^ 64)
    (hc : m.memory.cellAt addr = none) (h : m.protect addr size prot = .ok (m', status)) :
    m' = m := by
  unfold protect at h
  split_ifs at h
  · cases h
    rfl
  · obtain ⟨_, hvalid, h⟩ := bind_ok h
    obtain ⟨⟨k, v⟩, hf⟩ := exists_findVMA hs (requireValidMapping_ok hvalid)
    obtain ⟨hbase, hend, -⟩ := findVMA_uncovered hs hc hf
    obtain ⟨l, r, ha, hk, hlater⟩ := findEntry_around hs.vma.sorted hf
    have hzero : add64 addr 0 = addr := add64_eq haddr
    refine protectLoop_behind hs haddr hsize hbase (fun x hx => ?_) (by omega) h
    rw [findVMA, findEntry, floor_eq_of_around ha hx.1 fun f hf => by have := hlater f hf; omega]
    rfl

theorem protect_covered (hs : m.memory.Sound) (hlow : m.memory.LowAddresses)
    (hc : (m.memory.cellAt addr).isSome) (hfits : LoopFits addr size prot loopBound m 0)
    (h : m.protect addr size prot = .ok (m', status)) :
    Protects m addr size prot m' := by
  unfold protect at h
  split_ifs at h with hzero
  · cases h
    rw [hzero]
    exact .nil hs.vma _ _
  · obtain ⟨_, hvalid, h⟩ := bind_ok h
    obtain ⟨hend, hcov⟩ := isValidMapping_covered hs (requireValidMapping_ok hvalid) hc
    exact protectLoop_protects (n := 0) hs hlow hcov hend (Nat.zero_le _) hfits h

/-! ### Steps that keep the node of their area -/

/-- The kept node is that of the area or, where the piece starts with it, that of the piece. -/
theorem retype_kept {k : ℕ} {l r vmaMap : VMAMap} (hs : VMAMap.SoundMap m.memory.vmaMap)
    (ha : Around m.memory.vmaMap l (k, v) r) (hp : Part k v.size addr n)
    (h : VMAMap.retype m.memory.vmaMap addr n ({ · with prot := protectedBits v.type prot }) =
      .ok vmaMap)
    (hkept : ¬Erases m.memory.vmaMap addr n prot (k, v)) : ∃ w, (k, w) ∈ vmaMap := by
  rw [VMAMap.retype, VMAMap.carveWith_ok vmaKind_sound (fun _ h => h.bounded) hs ha hp,
    ok_bind] at h
  obtain ⟨⟨_, h'⟩, hmerge, rfl⟩ := map_ok h
  obtain ⟨-, -, hsound⟩ := VMAMap.carved_extent vmaKind_sound hs ha hp
  have hkeeps : VMAMap.KeepsCells ({ · with prot := protectedBits v.type prot }) :=
    ⟨⟨fun _ => rfl, fun _ => rfl⟩, fun _ => rfl, fun _ => rfl⟩
  have hv₁ := (VMAMap.changed_rewritten vmaKind_sound hs hkeeps.toReattributes ha hp
    (hkeeps.sound hsound)).valid vmaKind_sound hs
  obtain ⟨l', b, a', r', ha', hnext, hprev⟩ := mergeAdjacent_shape hv₁.sorted hv₁.around hmerge
  have hstart := hp.start
  by_cases hfront : addr = k
  · have hleading : vmaKind.leading k v (addr - k) (addr - k + n) = [] := if_neg (by omega)
    rw [hleading, List.append_nil] at hprev
    cases hprev with
    | keep => exact ⟨b, hfront ▸ ha'.mem⟩
    | absorb _ _ w hc =>
      -- The area in front could be merged with the piece alone.
      have hprev : prev m.memory.vmaMap k = (l' ++ [(h', w)]).getLast? := ha.prev
      refine absurd ⟨hfront, (h', w), hprev.trans List.getLast?_concat, ?_⟩ hkept
      have hwf := hv₁.wf _ hv₁.around.mem
      generalize hbehind : vmaKind.trailing k v (addr - k + n) ++ r = behind at hnext
      cases hnext with
      | keep => exact hc
      | absorb j next rest hjoin =>
        have hnext : (j, next).2.Sound := hv₁.wf (j, next) (by simp [VMAMap.changed, hbehind])
        exact VirtualMemoryArea.canMergeWith_of_join hwf hnext hjoin hc
  · have hleading : ∃ w, vmaKind.leading k v (addr - k) (addr - k + n) = [(k, w)] :=
      ⟨_, if_pos (by omega)⟩
    obtain ⟨w, hleading⟩ := hleading
    rw [hleading] at hprev
    generalize hl : l ++ [(k, w)] = front at hprev
    cases hprev with
    | keep => exact ⟨w, by simp [ha'.eq, ← hl]⟩
    | absorb l p b hc =>
      obtain ⟨-, hlast⟩ := List.append_inj' hl rfl
      cases hlast
      exact ⟨_, ha'.mem⟩

theorem protectBytes_safe {k : ℕ} {r : MemoryManager × ℕ} (hs : m.memory.Sound)
    (haddr : addr < 2 ^ 64) (hsize : size < 2 ^ 64) (hf : m.memory.findVMA addr = .ok (k, v))
    (hkept : ¬(v.type = .free ∨ v.type = .poolReserved) →
      ¬Erases m.memory.vmaMap addr (min (k + v.size - addr) size) prot (k, v))
    (h : m.memory.protectBytes addr v size prot = .ok r) :
    m.protectBytes addr v size prot ≠ .error .undefinedBehaviour := by
  obtain ⟨memory, n⟩ := r
  unfold protectBytes
  rw [h, ok_bind]
  dsimp only
  by_cases hskip : v.type = .free ∨ v.type = .poolReserved
  · rw [if_pos hskip]
    intro hub
    cases hub
  · rw [if_neg hskip]
    obtain ⟨-, rfl, l, r, ha, hp, hretype⟩ := protectBytes_carves hs haddr hsize hf hskip h
    obtain ⟨w, hw⟩ := retype_kept hs.vma ha hp hretype (hkept hskip)
    have hbase : v.base = k := hs.vma.keyed _ ha.mem
    have hsorted := (protectBytes_same hs haddr hsize h).sound.vma.sorted
    rw [hbase, get?_eq_some_of_mem hsorted hw, deref, ok_bind]
    -- The host may refuse the address, but the node has been read.
    split_ifs
    · unfold protectPages require
      split_ifs <;> (intro hub; cases hub)
    · intro hub
      cases hub

theorem protectLoop_safe {r : MemoryManager × Status} (hs : m.memory.Sound)
    (hfits : LoopFits addr size prot fuel m n)
    (h : m.memory.protectLoop addr size prot fuel n = .ok r) :
    protectLoop addr size prot fuel m n ≠ .error .undefinedBehaviour := by
  induction fuel generalizing m n with
  | zero => cases h
  | succ fuel ih =>
    unfold MemoryManager.protectLoop at h
    unfold protectLoop
    by_cases hmore : n < size
    · rw [if_pos hmore] at h ⊢
      obtain ⟨⟨k, v⟩, hf, h⟩ := bind_ok h
      obtain ⟨hstep, hrest⟩ := hfits hmore _ hf
      obtain ⟨l, r, ha, hk, -⟩ := findEntry_around hs.vma.sorted hf
      have hbase : v.base = k := hs.vma.keyed _ ha.mem
      have hgap : ¬v.base > add64 addr n := by
        dsimp only at hk
        omega
      rw [hf, ok_bind]
      dsimp only at h ⊢
      rw [if_neg hgap] at h ⊢
      obtain ⟨⟨memory, n₁⟩, hbytes, h⟩ := bind_ok h
      cases hresult : m.protectBytes (add64 addr n) v (sub64 size n) prot with
      | error fault =>
        have hsafe := protectBytes_safe hs (add64_lt _ _) (sub64_lt _ _) hf hstep.kept hbytes
        rw [hresult] at hsafe
        intro hub
        cases hub
        exact hsafe rfl
      | ok result =>
        obtain ⟨m₁, n₂⟩ := result
        have hmemory := protectBytes_memory hresult
        rw [hbytes] at hmemory
        cases hmemory
        rw [ok_bind]
        dsimp only at h ⊢
        split_ifs at h ⊢ with hneg
        · intro hub
          cases hub
        · exact ih (protectBytes_same hs (add64_lt _ _) (sub64_lt _ _) hbytes).sound
            (hrest _ _ hresult) h
    · rw [if_neg hmore]
      intro hub
      cases hub

/-- No step reads a node that has been merged away. -/
theorem protect_safe {r : MemoryManager × Status} (hs : m.memory.Sound)
    (hfits : LoopFits addr size prot loopBound m 0) (h : m.memory.protect addr size prot = .ok r) :
    m.protect addr size prot ≠ .error .undefinedBehaviour := by
  unfold MemoryManager.protect at h
  unfold protect
  split_ifs at h ⊢
  · exact nofun
  · obtain ⟨_, hvalid, h⟩ := bind_ok h
    rw [hvalid, ok_bind]
    exact protectLoop_safe hs hfits h

/-- The steps of a call on one whole area fit if its ends are those of pages and no area is in
front. -/
theorem LoopFits.whole {e : ℕ × VirtualMemoryArea} (hs : m.memory.Sound)
    (hf : m.memory.findVMA addr = .ok e)
    (hstart : e.1 = addr) (hsize : e.2.size = size)
    (hpage : roundUp (addr + size) hostPage = addr + size)
    (hprev : prev m.memory.vmaMap e.1 = none) : LoopFits addr size prot fuel m 0 := by
  obtain ⟨k, v⟩ := e
  obtain ⟨l, r, ha, -⟩ := findEntry_around hs.vma.sorted hf
  have hbase : v.base = k := hs.vma.keyed _ ha.mem
  have hbound : v.base + v.size < 2 ^ 64 := (hs.vma.wf _ ha.mem).bounded
  dsimp only at hstart hsize
  have hcur : add64 addr 0 = addr := add64_eq (by omega)
  have hleft : sub64 size 0 = size := sub64_eq (by omega) (Nat.zero_le _)
  cases fuel with
  | zero => trivial
  | succ fuel =>
    intro hmore e hf'
    rw [hcur, hf] at hf'
    cases hf'
    rw [hcur, hleft]
    have hend : addr + min (k + v.size - addr) size = addr + size := by omega
    have hpages : Told v prot → ∀ x, addr + min (k + v.size - addr) size ≤ x →
        x < roundUp (addr + min (k + v.size - addr) size) hostPage →
          m.permissions x = hostPermissions prot := by
      intro _ x hle hlt
      rw [hend] at hle hlt
      omega
    have hkept : ¬Erases m.memory.vmaMap addr (min (k + v.size - addr) size) prot (k, v) := by
      rintro ⟨-, p, hp, -⟩
      cases hprev.symm.trans hp
    refine ⟨⟨fun _ => hkept, fun _ => hpages⟩, fun m₁ n hbytes => ?_⟩
    obtain ⟨rfl, -⟩ :=
      protectBytes_protects hs ha.mem ⟨hstart.le, by omega⟩ (by omega) hpages hbytes
    rw [add64_eq (by omega)]
    cases fuel with
    | zero => trivial
    | succ fuel => exact fun hmore => absurd hmore (by omega)

/-! ### What was asked for -/

/-- The bytes that a call reaches: from an address in no area it reaches none. -/
def reach (m : ProtectedMemory) (addr size : ℕ) : ℕ := if (m.labelAt addr).isSome then size else 0

theorem reach_le (m : ProtectedMemory) (addr size : ℕ) : m.reach addr size ≤ size := by
  unfold reach
  split_ifs
  · exact le_rfl
  · exact Nat.zero_le _

theorem protect_effect (hs : m.memory.Sound) (hlow : m.memory.LowAddresses) (haddr : addr < 2 ^ 64)
    (hsize : size < 2 ^ 64) (hfits : LoopFits addr size prot loopBound m 0)
    (h : m.protect addr size prot = .ok (m', status)) :
    Protects m addr (m.reach addr size) prot m' := by
  have hsome : (m.labelAt addr).isSome = (m.memory.cellAt addr).isSome := VMAMap.labelAt_isSome _ _
  unfold reach
  rw [hsome]
  cases hc : m.memory.cellAt addr with
  | none =>
    rw [protect_uncovered hs haddr hsize hc h]
    exact .nil hs.vma _ _
  | some c => exact protect_covered hs hlow (by rw [hc]; rfl) hfits h

/-- After the call the host permissions in the range are those of the protection, the rest has kept
its protection, and every stored protection has known bits only. -/
structure AsAsked (m : ProtectedMemory) (addr size : ℕ) (prot : UInt32) (m' : ProtectedMemory) :
    Prop where
  applied : ∀ x label, addr ≤ x ∧ x < addr + size → m'.labelAt x = some label →
    label.isMapped = true → Grants prot (m'.permissions x)
  kept : ∀ x, ¬(addr ≤ x ∧ x < addr + size) → m'.permissions x = m.permissions x ∧
    m'.labelAt x = m.labelAt x
  stored : ∀ x label, m'.labelAt x = some label → InMask label.prot

/-- The call stores its protection for the address. -/
def Stores (m : ProtectedMemory) (addr size x : ℕ) (label : Label) : Prop :=
  (addr ≤ x ∧ x < addr + m.reach addr size) ∧ label.type ≠ .free ∧ label.type ≠ .poolReserved

instance (addr size x : ℕ) (label : Label) : Decidable (m.Stores addr size x label) := by
  unfold Stores
  infer_instance

/-- Where the host is told, the protection asks for writing if it asks for reading. Elsewhere the
permissions fit before the call. The protection has known bits if it is stored anywhere, and so have
the other stored ones. -/
structure Fits (m : ProtectedMemory) (addr size : ℕ) (prot : UInt32) : Prop where
  applied : ∀ x label, addr ≤ x ∧ x < addr + size → m.labelAt x = some label →
    label.isMapped = true →
    if x < addr + m.reach addr size ∧ prot ≠ label.prot then WritesIfReads prot
      else Grants prot (m.permissions x)
  stored : ∀ x label, m.labelAt x = some label →
    InMask (if m.Stores addr size x label then prot else label.prot)

theorem inMask_protects (prot : UInt32) (label : Label) : InMask (protects prot label).prot ↔
    InMask (if label.type ≠ .free ∧ label.type ≠ .poolReserved then prot else label.prot) := by
  unfold protects
  by_cases hskip : label.type = .free ∨ label.type = .poolReserved
  · rw [if_pos hskip, if_neg (by tauto)]
  · rw [if_neg hskip, if_pos (by tauto)]
    exact inMask_protectedBits _ _

theorem Protects.label_iff (h : Protects m addr n prot m') {label : Label} :
    m'.labelAt x = some label ↔ ∃ old, m.labelAt x = some old ∧
      label = if addr ≤ x ∧ x < addr + n then protects prot old else old := by
  rw [labelAt, h.labels.labels]
  split_ifs
  · rw [Option.map_eq_some_iff]
    exact ⟨fun ⟨old, hold, heq⟩ => ⟨old, hold, heq.symm⟩,
      fun ⟨old, hold, heq⟩ => ⟨old, hold, heq.symm⟩⟩
  · exact ⟨fun hold => ⟨label, hold, rfl⟩, fun ⟨old, hold, heq⟩ => heq ▸ hold⟩

theorem Protects.kept (h : Protects m addr n prot m') (hx : ¬(addr ≤ x ∧ x < addr + n)) :
    m'.permissions x = m.permissions x ∧ m'.labelAt x = m.labelAt x := by
  refine ⟨by rw [h.permissions, if_neg hx], ?_⟩
  rw [labelAt, h.labels.labels, if_neg hx, labelAt]

/-- In the range the permissions fit behind the change exactly when the condition holds before
it. -/
theorem Protects.grants_iff (h : Protects m addr n prot m') {old : Label} (hx : addr ≤ x)
    (hold : m.labelAt x = some old) (hmapped : old.isMapped = true) :
    Grants prot (m'.permissions x) ↔
    if x < addr + n ∧ prot ≠ old.prot then WritesIfReads prot
      else Grants prot (m.permissions x) := by
  rw [h.permissions]
  by_cases hin : x < addr + n
  · rw [if_pos ⟨hx, hin⟩, hold, permitted_some]
    by_cases hne : prot ≠ old.prot
    · rw [if_pos ⟨hmapped, hne⟩, if_pos ⟨hin, hne⟩]
      exact grants_hostPermissions prot
    · rw [if_neg fun h => hne h.2, if_neg fun h => hne h.2]
  · rw [if_neg fun h => hin h.2, if_neg fun h => hin h.1]

theorem Protects.asAsked_iff (h : Protects m addr (m.reach addr size) prot m') :
    AsAsked m addr size prot m' ↔ Fits m addr size prot := by
  have hmapped : ∀ x old,
    (if addr ≤ x ∧ x < addr + m.reach addr size then protects prot old else old).isMapped =
      old.isMapped := by
    intro x old
    split_ifs
    · rw [Label.isMapped, protects_type, Label.isMapped]
    · rfl
  have hmask : ∀ x old, InMask (if addr ≤ x ∧ x < addr + m.reach addr size then protects prot old
    else old).prot ↔ InMask (if m.Stores addr size x old then prot else old.prot) := by
    intro x old
    by_cases hin : addr ≤ x ∧ x < addr + m.reach addr size
    · rw [if_pos hin, inMask_protects]
      by_cases htype : old.type ≠ .free ∧ old.type ≠ .poolReserved
      · rw [if_pos htype, if_pos ⟨hin, htype⟩]
      · rw [if_neg htype, if_neg fun h => htype h.2]
    · rw [if_neg hin, if_neg fun h => hin h.1]
  constructor
  · intro hasked
    refine ⟨fun x old hx hold hm => ?_, fun x old hold => ?_⟩
    · exact (h.grants_iff hx.1 hold hm).mp
        (hasked.applied x _ hx (h.label_iff.mpr ⟨old, hold, rfl⟩) ((hmapped x old).trans hm))
    · exact (hmask x old).mp (hasked.stored x _ (h.label_iff.mpr ⟨old, hold, rfl⟩))
  · intro hfits
    refine ⟨fun x label hx hlabel hm => ?_, fun x hx => ?_, fun x label hlabel => ?_⟩
    · obtain ⟨old, hold, rfl⟩ := h.label_iff.mp hlabel
      have hm' : old.isMapped = true := (hmapped x old).symm.trans hm
      exact (h.grants_iff hx.1 hold hm').mpr (hfits.applied x old hx hold hm')
    · have := m.reach_le addr size
      exact h.kept fun hin => hx ⟨hin.1, by omega⟩
    · obtain ⟨old, hold, rfl⟩ := h.label_iff.mp hlabel
      exact (hmask x old).mpr (hfits.stored x old hold)

end ProtectedMemory

/-! ### Runs of protection changes -/

structure ProtectCall where
  addr : UInt64
  size : UInt64
  prot : UInt32

namespace ProtectCall

def Covers (call : ProtectCall) (x : ℕ) : Prop :=
  call.addr.toNat ≤ x ∧ x < call.addr.toNat + call.size.toNat

instance (call : ProtectCall) (x : ℕ) : Decidable (call.Covers x) := by
  unfold Covers
  infer_instance

def run (call : ProtectCall) (m : ProtectedMemory) : Except Fault ProtectedMemory :=
  Prod.fst <$> m.protect call.addr.toNat call.size.toNat call.prot

def Fits (call : ProtectCall) (m : ProtectedMemory) : Prop :=
  m.Fits call.addr.toNat call.size.toNat call.prot

def StepsFit (call : ProtectCall) (m : ProtectedMemory) : Prop :=
  ProtectedMemory.LoopFits call.addr.toNat call.size.toNat call.prot loopBound m 0

/-- A sequence of calls; a fault of one of them ends the run. -/
def runAll : List ProtectCall → ProtectedMemory → Except Fault ProtectedMemory
  | [], m => .ok m
  | call :: calls, m => do
    let m ← call.run m
    runAll calls m

theorem runAll_append (calls calls' : List ProtectCall) (m : ProtectedMemory) :
    runAll (calls ++ calls') m = runAll calls m >>= runAll calls' := by
  induction calls generalizing m with
  | nil => rfl
  | cons call calls ih =>
    simp only [List.cons_append, runAll, bind_assoc]
    exact congrArg _ (funext ih)

/-- The protection of the last call that covers the address. -/
def lastProt (calls : List ProtectCall) (x : ℕ) : Option UInt32 :=
  (calls.reverse.find? fun call => call.Covers x).map ProtectCall.prot

theorem lastProt_append (calls : List ProtectCall) (call : ProtectCall) (x : ℕ) :
    lastProt (calls ++ [call]) x = if call.Covers x then some call.prot else lastProt calls x := by
  unfold lastProt
  rw [List.reverse_append, List.reverse_singleton, List.singleton_append, List.find?_cons]
  by_cases hx : call.Covers x
  · rw [if_pos hx, decide_eq_true hx]
    rfl
  · rw [if_neg hx, decide_eq_false hx]

/-- Behind a run the host permissions of every mapped address are those of the last call that covers
it, addresses that no call covers have kept their protection, and every stored protection has known
bits only. -/
structure AsAsked (m : ProtectedMemory) (calls : List ProtectCall) (m' : ProtectedMemory) :
    Prop where
  applied : ∀ x label prot, lastProt calls x = some prot → m'.labelAt x = some label →
    label.isMapped = true → Grants prot (m'.permissions x)
  kept : ∀ x, lastProt calls x = none → m'.permissions x = m.permissions x ∧
    m'.labelAt x = m.labelAt x
  stored : calls ≠ [] → ∀ x label, m'.labelAt x = some label → InMask label.prot

variable {m m₁ m' : ProtectedMemory} {calls : List ProtectCall} {call : ProtectCall}

theorem AsAsked.nil (m : ProtectedMemory) : AsAsked m [] m where
  applied := fun _ _ _ h => nomatch h
  kept := fun _ _ => ⟨rfl, rfl⟩
  stored := fun h => absurd rfl h

theorem AsAsked.snoc (h : AsAsked m calls m₁)
    (hcall : m₁.AsAsked call.addr.toNat call.size.toNat call.prot m') :
    AsAsked m (calls ++ [call]) m' := by
  refine ⟨fun x label prot hlast hlabel hmapped => ?_, fun x hlast => ?_, fun _ => hcall.stored⟩
  · rw [lastProt_append] at hlast
    split_ifs at hlast with hx
    · cases hlast
      exact hcall.applied x label hx hlabel hmapped
    · obtain ⟨hperm, hsame⟩ := hcall.kept x hx
      rw [hperm]
      exact h.applied x label prot hlast (hsame ▸ hlabel) hmapped
  · rw [lastProt_append] at hlast
    split_ifs at hlast with hx
    obtain ⟨hperm, hsame⟩ := hcall.kept x hx
    obtain ⟨hperm', hsame'⟩ := h.kept x hlast
    exact ⟨hperm.trans hperm', hsame.trans hsame'⟩

theorem AsAsked.last {n : ℕ} (h : AsAsked m (calls ++ [call]) m')
    (hstep : ProtectedMemory.Protects m₁ call.addr.toNat n call.prot m')
    (hn : n ≤ call.size.toNat) :
    m₁.AsAsked call.addr.toNat call.size.toNat call.prot m' := by
  refine ⟨fun x label hx hlabel hmapped => ?_, fun x hx => ?_, h.stored (by simp)⟩
  · exact h.applied x label call.prot ((lastProt_append calls call x).trans (if_pos hx)) hlabel
      hmapped
  · exact hstep.kept fun hin => hx ⟨hin.1, by omega⟩

end ProtectCall

section Guest

variable {c : Config} {P : Kernel → GuestCall → Prop} {k : Kernel}

theorem ProtectCall.run_regular {m m' : ProtectedMemory} {call : ProtectCall}
    (hr : Regular c m.memory) (h : call.run m = .ok m') : Regular c m'.memory := by
  obtain ⟨⟨m₁, status⟩, hprotect, rfl⟩ := map_ok h
  have hop : (Operation.protect call.addr call.size call.prot).run m.memory = .ok (m₁.memory,
    .status status 0) := by
    rw [Operation.run, ProtectedMemory.protect_memory hprotect]
    rfl
  have hadmitted : (Operation.protect call.addr call.size call.prot).Admitted := trivial
  exact Operation.run_regular hr hadmitted hop

theorem ProtectCall.run_effect {m m' : ProtectedMemory} {call : ProtectCall}
    (hr : Regular c m.memory)
    (hfits : call.StepsFit m) (h : call.run m = .ok m') : ProtectedMemory.Protects m call.addr.toNat
      (m.reach call.addr.toNat call.size.toNat) call.prot m' := by
  obtain ⟨⟨m₁, status⟩, hprotect, rfl⟩ := map_ok h
  exact ProtectedMemory.protect_effect hr.sound hr.low call.addr.toNat_lt call.size.toNat_lt hfits
    hprotect

theorem ProtectCall.runAll_regular {m m' : ProtectedMemory} {calls : List ProtectCall}
    (hr : Regular c m.memory) (h : ProtectCall.runAll calls m = .ok m') : Regular c m'.memory := by
  induction calls generalizing m with
  | nil =>
    cases h
    exact hr
  | cons call calls ih =>
    obtain ⟨m₁, hcall, h⟩ := bind_ok h
    exact ih (call.run_regular hr hcall) h

/-- In a run of protection changes whose steps fit, no call reads a merged node, and all states are
as asked for exactly when every call fits where it is made. -/
theorem protect_run_iff (hc : c.Usable) (h : Reachable c P k) (permissions : ℕ → UInt32)
    (calls : List ProtectCall)
    (hsteps : ∀ before call after m₁, calls = before ++ call :: after →
      ProtectCall.runAll before ⟨k.memory, permissions⟩ = .ok m₁ → call.StepsFit m₁) :
    (∀ before call after m₁ r, calls = before ++ call :: after →
      ProtectCall.runAll before ⟨k.memory, permissions⟩ = .ok m₁ →
      m₁.memory.protect call.addr.toNat call.size.toNat call.prot = .ok r →
      call.run m₁ ≠ .error .undefinedBehaviour) ∧
    ∀ m', ProtectCall.runAll calls ⟨k.memory, permissions⟩ = .ok m' →
      ((∀ before after m₁, calls = before ++ after →
        ProtectCall.runAll before ⟨k.memory, permissions⟩ = .ok m₁ →
        ProtectCall.AsAsked ⟨k.memory, permissions⟩ before m₁) ↔
      ∀ before call after m₁, calls = before ++ call :: after →
        ProtectCall.runAll before ⟨k.memory, permissions⟩ = .ok m₁ → call.Fits m₁) := by
  have hr : Regular c k.memory := (h.direct_pos hc).1
  refine ⟨fun before call after m₁ r hcalls hbefore hprotect hub => ?_, fun m' hrun => ⟨?_, ?_⟩⟩
  · have hsound := (ProtectCall.runAll_regular hr hbefore).sound
    refine ProtectedMemory.protect_safe hsound
      (hsteps before call after m₁ hcalls hbefore) hprotect ?_
    unfold ProtectCall.run at hub
    cases hresult : m₁.protect call.addr.toNat call.size.toNat call.prot with
    | error fault =>
      rw [hresult] at hub
      cases hub
      rfl
    | ok result =>
      rw [hresult] at hub
      cases hub
  · intro hasked before call after m₁ hcalls hbefore
    have hr₁ : Regular c m₁.memory := ProtectCall.runAll_regular hr hbefore
    have hfits₁ := hsteps before call after m₁ hcalls hbefore
    rw [hcalls, ProtectCall.runAll_append, hbefore, ok_bind] at hrun
    obtain ⟨m₂, hcall, -⟩ := bind_ok hrun
    have hstep := call.run_effect hr₁ hfits₁ hcall
    have hlast : ProtectCall.runAll (before ++ [call]) ⟨k.memory, permissions⟩ = .ok m₂ := by
      rw [ProtectCall.runAll_append, hbefore, ok_bind, ProtectCall.runAll, hcall]
      rfl
    have hall := hasked (before ++ [call]) after m₂ (by rw [hcalls]; simp) hlast
    exact hstep.asAsked_iff.mp (hall.last hstep (m₁.reach_le _ _))
  · intro hfits before
    -- By induction on the calls made so far.
    induction before using List.reverseRecOn with
    | nil =>
      intro after m₁ _ hbefore
      cases hbefore
      exact .nil _
    | append_singleton before call ih =>
      intro after m₂ hcalls hbefore
      rw [ProtectCall.runAll_append] at hbefore
      obtain ⟨m₁, hbefore, hcall⟩ := bind_ok hbefore
      obtain ⟨m₂', hcall, hnil⟩ := bind_ok hcall
      cases hnil
      have hcalls' : calls = before ++ call :: after := by rw [hcalls]; simp
      have hstep := call.run_effect (ProtectCall.runAll_regular hr hbefore)
        (hsteps before call after m₁ hcalls' hbefore) hcall
      exact (ih _ m₁ hcalls' hbefore).snoc
        (hstep.asAsked_iff.mpr (hfits before call after m₁ hcalls' hbefore))

/-- A heap of the protection `prot`, the first area of the map, and a call on it that returns. -/
theorem exists_protected (prot asked permissions : UInt32)
    (P : ProtectedMemory → Prop) [DecidablePred P]
    (h : ((Kernel.callAll [.mapNamedFlexibleMemory 0x200000000 0x4000 prot 0x10 (some "heap")]
      startedKernel).toOption.any
      fun k => ((k.memory.findVMA 0x200000000).toOption.any fun e => e.1 = 0x200000000 ∧
        e.2.size = 0x4000 ∧
          e.2.prot = prot ∧ prev k.memory.vmaMap e.1 = none) = true ∧
            (∀ f ∈ k.memory.vmaMap, InMask f.2.prot) ∧
        ((ProtectCall.runAll [⟨0x200000000, 0x4000, asked⟩] ⟨k.memory,
          fun _ => permissions⟩).toOption.any
          fun m' => P m') = true) = true) :
    ∃ k m' e, Reachable Config.oneRegion (fun _ _ => True) k ∧
      k.memory.findVMA 0x200000000 = .ok e ∧
      (e.1 = 0x200000000 ∧ e.2.size = 0x4000 ∧ e.2.prot = prot ∧ prev k.memory.vmaMap e.1 = none) ∧
      (∀ f ∈ k.memory.vmaMap, InMask f.2.prot) ∧
      ProtectCall.runAll [⟨0x200000000, 0x4000, asked⟩] ⟨k.memory, fun _ => permissions⟩ = .ok m' ∧
        P m' := by
  obtain ⟨k, hcalls, hfound, hmask, hok⟩ := ok_of_any h
  obtain ⟨e, hf, he⟩ := ok_of_any hfound
  obtain ⟨m', hrun, hP⟩ := ok_of_any hok
  exact ⟨k, m', e, startedKernel_reachable.callAll (fun _ _ _ => trivial) hcalls, hf, he, hmask,
    hrun, hP⟩

theorem protect_run_iff_heap : ∃ (k : Kernel) (m' : ProtectedMemory),
    ProtectCall.runAll [⟨0x200000000, 0x4000, 3⟩] ⟨k.memory, fun _ => MemoryPermission.read⟩ =
      .ok m' ∧
    m'.permissions 0x200000000 = MemoryPermission.readWrite ∧
    ProtectCall.AsAsked ⟨k.memory, fun _ => MemoryPermission.read⟩
      [⟨0x200000000, 0x4000, 3⟩] m' := by
  obtain ⟨k, m', e, hk, hf, ⟨hstart, hsize, hprot, hprev⟩, hmask, hrun, htold⟩ :=
    exists_protected 1 3
    MemoryPermission.read (fun m' => m'.permissions 0x200000000 = MemoryPermission.readWrite)
      (by decide)
  have hr : Regular Config.oneRegion k.memory := (hk.direct_pos Config.oneRegion_usable).1
  have hmem : e ∈ k.memory.vmaMap := by
    obtain ⟨l, r, ha, -⟩ := findEntry_around hr.sound.vma.sorted hf
    exact ha.mem
  refine ⟨k, m', hrun, htold, ?_⟩
  have hsplit : ∀ (before : List ProtectCall) (call : ProtectCall) (after : List ProtectCall)
    (m₁ : ProtectedMemory), [⟨0x200000000, 0x4000, 3⟩] = before ++ call :: after →
      ProtectCall.runAll before ⟨k.memory, fun _ => MemoryPermission.read⟩ = .ok m₁ →
      call = ⟨0x200000000, 0x4000, 3⟩ ∧ m₁ = ⟨k.memory, fun _ => MemoryPermission.read⟩ := by
    intro before call after m₁ hcalls hbefore
    rcases before with _ | ⟨first, before⟩
    · cases hcalls
      cases hbefore
      exact ⟨rfl, rfl⟩
    · cases before <;> cases hcalls
  refine ((protect_run_iff Config.oneRegion_usable hk _ _ fun before call after m₁ hcalls hbefore =>
    ?_).2 m' hrun).mpr
    (fun before call after m₁ hcalls hbefore => ?_) _ [] m' (List.append_nil _).symm hrun
  · obtain ⟨rfl, rfl⟩ := hsplit before call after m₁ hcalls hbefore
    exact ProtectedMemory.LoopFits.whole (m := ⟨k.memory, _⟩) hr.sound hf hstart hsize
      (by decide) hprev
  · obtain ⟨rfl, rfl⟩ := hsplit before call after m₁ hcalls hbefore
    refine ⟨fun x label hx hlabel _ => ?_, fun x label hlabel => ?_⟩
    · -- The whole range lies in the heap, which may only be read before.
      have hx' : e.1 ≤ x ∧ x < e.1 + e.2.size := by
        rw [hstart, hsize]
        exact hx
      have hold := (VMAMap.labelAt_mem hr.sound.vma hmem hx').symm.trans hlabel
      cases hold
      have hreach : ProtectedMemory.reach ⟨k.memory,
        fun _ => MemoryPermission.read⟩ 0x200000000 0x4000 = 0x4000 := by
        have hfirst := VMAMap.labelAt_mem hr.sound.vma hmem (x := 0x200000000) (by omega)
        rw [ProtectedMemory.reach, ProtectedMemory.labelAt, hfirst]
        rfl
      have hwrites : WritesIfReads 3 := fun _ => by decide
      refine (if_pos ⟨?_, ?_⟩).mpr hwrites
      · exact lt_of_lt_of_eq hx.2 (congrArg (0x200000000 + ·) hreach.symm)
      · simp [VirtualMemoryArea.label, hprot]
    · split_ifs
      · decide
      · obtain ⟨f, hf, -, rfl⟩ := VMAMap.labelAt_some hlabel
        exact hmask f hf

/-- A heap that is protected to reading only can still be written. -/
theorem protect_run_fails :
    ∃ k m', Reachable Config.oneRegion (fun _ _ => True) k ∧
      ProtectCall.runAll [⟨0x200000000, 0x4000, 1⟩] ⟨k.memory,
        fun _ => MemoryPermission.readWrite⟩ = .ok m' ∧
      ¬ProtectCall.AsAsked ⟨k.memory, fun _ => MemoryPermission.readWrite⟩
        [⟨0x200000000, 0x4000, 1⟩] m' := by
  obtain ⟨k, m', -, hk, -, -, -, hrun, hwrite, hmapped⟩ :=
    exists_protected 3 1 MemoryPermission.readWrite
    (fun m' => m'.permissions 0x200000000 = MemoryPermission.readWrite ∧
      ((m'.labelAt 0x200000000).any Label.isMapped) = true) (by decide)
  refine ⟨k, m', hk, hrun, fun hasked => ?_⟩
  obtain ⟨label, hlabel, hmapped⟩ := Option.any_eq_true _ _ |>.mp hmapped
  have hgrants := hasked.applied 0x200000000 label 1 (by decide) hlabel hmapped
  rw [hwrite] at hgrants
  exact absurd (hgrants.write (by decide)) (by decide)

end Guest

end PS4Droid.Memory
