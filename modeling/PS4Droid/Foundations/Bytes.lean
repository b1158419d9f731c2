import PS4Droid.Foundations.Scatter

/-!
# Numbers in byte memory

A memory is a function from addresses to bytes. Numbers are read with their low byte first.
-/

namespace PS4Droid.Bytes

/-- The number in the `n` bytes from `addr` on. -/
def readLE (mem : ℕ → UInt8) (addr : ℕ) : ℕ → ℕ
  | 0 => 0
  | n + 1 => (mem addr).toNat + 256 * readLE mem (addr + 1) n

/-- The `n` bytes from `addr` on. -/
def readBytes (mem : ℕ → UInt8) (addr n : ℕ) : List UInt8 :=
  (List.range n).map fun i => mem (addr + i)

/-- The memories agree on the `n` bytes from `addr` on. -/
def SameOn (mem mem' : ℕ → UInt8) (addr n : ℕ) : Prop :=
  ∀ x, addr ≤ x ∧ x < addr + n → mem' x = mem x

variable {mem : ℕ → UInt8} {addr n x : ℕ}

theorem copyAt_outside {data : ℕ → UInt8} (h : ¬(addr ≤ x ∧ x < addr + n)) :
    copyAt mem addr n data x = mem x :=
  if_neg h

namespace SameOn

theorem refl (mem : ℕ → UInt8) (addr n : ℕ) : SameOn mem mem addr n := fun _ _ => rfl

end SameOn

end PS4Droid.Bytes
