import Mathlib.Data.List.Pairwise
import Mathlib.Data.List.Perm.Basic
import Mathlib.Tactic.Linarith

/-!
# Partitions of a range into blocks

A block `(b, n)` occupies `[b, b + n)`. A list of blocks partitions `[lo, hi)` when the blocks
are not empty, do not overlap and together occupy exactly that range. The order of the list does
not matter, and a block can be cut into two neighbours or joined from them, so whatever is done
to the blocks of an allocator by moving, cutting and joining keeps the partition.
-/

namespace PS4Droid

/-- `x` lies in the block `b`. -/
def InBlock (b : ℕ × ℕ) (x : ℕ) : Prop :=
  b.1 ≤ x ∧ x < b.1 + b.2

/-- Two blocks without a common point. -/
def Apart (b c : ℕ × ℕ) : Prop :=
  b.1 + b.2 ≤ c.1 ∨ c.1 + c.2 ≤ b.1

theorem Apart.symm {b c : ℕ × ℕ} (h : Apart b c) : Apart c b := Or.symm h

instance : Std.Symm Apart := ⟨fun _ _ => Apart.symm⟩

structure Partition (blocks : List (ℕ × ℕ)) (lo hi : ℕ) : Prop where
  pos : ∀ b ∈ blocks, 0 < b.2
  apart : blocks.Pairwise Apart
  covers : ∀ x, (∃ b ∈ blocks, InBlock b x) ↔ lo ≤ x ∧ x < hi

namespace Partition

variable {blocks blocks' : List (ℕ × ℕ)} {lo hi b m n : ℕ}

theorem singleton (h : 0 < n) : Partition [(b, n)] b (b + n) :=
  ⟨by simpa using h, by simp, by simp [InBlock]⟩

theorem perm (h : Partition blocks lo hi) (hp : blocks.Perm blocks') : Partition blocks' lo hi := by
  refine ⟨fun b hb => h.pos b (hp.mem_iff.mpr hb), ?_, fun x => ?_⟩
  · exact (hp.pairwise_iff Apart.symm).mp h.apart
  · rw [← h.covers x]
    simp only [hp.mem_iff]

variable {c d : ℕ × ℕ}

/-- A block lies inside the range. -/
theorem bounds (h : Partition blocks lo hi) (hc : c ∈ blocks) : lo ≤ c.1 ∧ c.1 + c.2 ≤ hi := by
  have hpos := h.pos c hc
  have hfirst := (h.covers c.1).mp ⟨c, hc, le_rfl, by omega⟩
  have hlast := (h.covers (c.1 + c.2 - 1)).mp ⟨c, hc, by omega, by omega⟩
  omega

theorem apart_head {rest : List (ℕ × ℕ)} (h : Partition (c :: rest) lo hi)
    (hd : d ∈ rest) : Apart c d :=
  (List.pairwise_cons.mp h.apart).1 d hd

/-- Distinct blocks do not overlap. -/
theorem apart_of_ne (h : Partition blocks lo hi) (hc : c ∈ blocks)
    (hd : d ∈ blocks) (hne : c ≠ d) : Apart c d :=
  h.apart.forall hc hd hne

theorem cut (h : Partition ((b, m + n) :: blocks) lo hi) (hm : 0 < m) (hn : 0 < n) :
    Partition ((b, m) :: (b + m, n) :: blocks) lo hi := by
  obtain ⟨hall, hrest⟩ := List.pairwise_cons.mp h.apart
  constructor
  · intro c hc
    rcases List.mem_cons.mp hc with rfl | hc
    · exact hm
    · rcases List.mem_cons.mp hc with rfl | hc
      · exact hn
      · exact h.pos c (.tail _ hc)
  · refine List.pairwise_cons.mpr ⟨fun c hc => ?_, List.pairwise_cons.mpr ⟨fun c hc => ?_, hrest⟩⟩
    · rcases List.mem_cons.mp hc with rfl | hc
      · exact .inl le_rfl
      · have := hall c hc
        simp only [Apart] at *
        omega
    · have := hall c hc
      simp only [Apart] at *
      omega
  · intro x
    rw [← h.covers x]
    simp only [List.mem_cons, exists_eq_or_imp, InBlock]
    rw [← or_assoc]
    refine or_congr ?_ Iff.rfl
    omega

theorem join (h : Partition ((b, m) :: (b + m, n) :: blocks) lo hi) :
    Partition ((b, m + n) :: blocks) lo hi := by
  obtain ⟨hall, hrest⟩ := List.pairwise_cons.mp h.apart
  obtain ⟨hall', hrest⟩ := List.pairwise_cons.mp hrest
  have hm : 0 < m := h.pos (b, m) (.head _)
  have hn : 0 < n := h.pos (b + m, n) (.tail _ (.head _))
  constructor
  · intro c hc
    rcases List.mem_cons.mp hc with rfl | hc
    · simp only
      omega
    · exact h.pos c (.tail _ (.tail _ hc))
  · refine List.pairwise_cons.mpr ⟨fun c hc => ?_, hrest⟩
    have hpos := h.pos c (.tail _ (.tail _ hc))
    have h1 := hall c (.tail _ hc)
    have h2 := hall' c hc
    simp only [Apart] at *
    omega
  · intro x
    rw [← h.covers x]
    simp only [List.mem_cons, exists_eq_or_imp, InBlock]
    rw [← or_assoc]
    refine or_congr ?_ Iff.rfl
    omega

/-- The block at `b` of size `n`, or nothing for size zero. -/
def piece (b n : ℕ) : List (ℕ × ℕ) := if n = 0 then [] else [(b, n)]

/-- Either part of a cut may be empty. -/
theorem cut_pieces (h : Partition ((b, m + n) :: blocks) lo hi) :
    Partition (piece b m ++ (piece (b + m) n ++ blocks)) lo hi := by
  have hpos := h.pos (b, m + n) (.head _)
  unfold piece
  split_ifs with hm hn hn
  · simp only at hpos
    omega
  · subst hm
    simpa using h
  · subst hn
    simpa using h
  · exact h.cut (by omega) (by omega)

theorem piece_pos (h : 0 < n) : piece b n = [(b, n)] := if_neg (by omega)

/-- A block cut out of the middle of another. -/
theorem cut_middle {t : ℕ} (h : Partition ((b, m + (n + t)) :: blocks) lo hi) (hn : 0 < n) :
    Partition (piece b m ++ ((b + m, n) :: (piece (b + m + n) t ++ blocks))) lo hi := by
  have hcut := h.cut_pieces
  rw [piece_pos (b := b + m) (n := n + t) (by omega)] at hcut
  have hcut' := (hcut.perm List.perm_middle).cut_pieces
  rw [piece_pos hn] at hcut'
  refine hcut'.perm ?_
  exact ((List.perm_append_comm_assoc _ _ blocks).cons _).trans List.perm_middle.symm

end Partition

/-! ### Intervals apart from each other -/

/-- The intervals `[start a, stop a)` of a list are not empty, and each ends before the next one
begins. -/
structure Separate {α : Type*} (start stop : α → ℕ) (l : List α) : Prop where
  pos : ∀ a ∈ l, start a < stop a
  ordered : l.Pairwise fun a b => stop a < start b

namespace Separate

variable {α : Type*} {start stop : α → ℕ} {l l' : List α} {a b : α}

def Has (start stop : α → ℕ) (l : List α) (x : ℕ) : Prop := ∃ a ∈ l, start a ≤ x ∧ x < stop a

theorem tail (h : Separate start stop (a :: l)) : Separate start stop l :=
  ⟨fun b hb => h.pos b (.tail _ hb), (List.pairwise_cons.mp h.ordered).2⟩

/-- The first interval of a list that has all points of another one begins no later, and if at the
same point, it ends no earlier. -/
theorem head_le (h : Separate start stop (a :: l)) (h' : Separate start stop (b :: l'))
    (hsub : ∀ x, Has start stop (a :: l) x → Has start stop (b :: l') x) :
    start b ≤ start a ∧ (start a = start b → stop a ≤ stop b) := by
  have hpos := h.pos a (.head _)
  have hpos' := h'.pos b (.head _)
  have hnext := (List.pairwise_cons.mp h'.ordered).1
  constructor
  · obtain ⟨c, hc, hle, -⟩ := hsub (start a) ⟨a, .head _, le_rfl, hpos⟩
    rcases List.mem_cons.mp hc with rfl | hc
    · exact hle
    · have := hnext c hc
      omega
  · intro heq
    by_contra hlt
    obtain ⟨c, hc, hle, hc'⟩ := hsub (stop b) ⟨a, .head _, by omega, by omega⟩
    rcases List.mem_cons.mp hc with rfl | hc
    · omega
    · have := hnext c hc
      omega

theorem has_tail (h : Separate start stop (a :: l)) (x : ℕ) :
    Has start stop l x ↔ Has start stop (a :: l) x ∧ stop a < x := by
  have hnext := (List.pairwise_cons.mp h.ordered).1
  constructor
  · rintro ⟨c, hc, hle, hlt⟩
    exact ⟨⟨c, .tail _ hc, hle, hlt⟩, (hnext c hc).trans_le hle⟩
  · rintro ⟨⟨c, hc, hle, hlt⟩, hx⟩
    rcases List.mem_cons.mp hc with rfl | hc
    · omega
    · exact ⟨c, hc, hle, hlt⟩

/-- The points determine the list. -/
theorem eq_of_has (hends : ∀ a b, start a = start b → stop a = stop b → a = b)
    (h : Separate start stop l)
    (h' : Separate start stop l') (hhas : ∀ x, Has start stop l x ↔ Has start stop l' x) :
    l = l' := by
  induction l generalizing l' with
  | nil =>
    cases l' with
    | nil => rfl
    | cons b l' =>
      obtain ⟨c, hc, -⟩ := (hhas (start b)).mpr ⟨b, .head _, le_rfl, h'.pos b (.head _)⟩
      cases hc
  | cons a l ih =>
    cases l' with
    | nil =>
      obtain ⟨c, hc, -⟩ := (hhas (start a)).mp ⟨a, .head _, le_rfl, h.pos a (.head _)⟩
      cases hc
    | cons b l' =>
      obtain ⟨hstart, hstop⟩ := h.head_le h' fun x => (hhas x).mp
      obtain ⟨hstart', hstop'⟩ := h'.head_le h fun x => (hhas x).mpr
      have heq : start a = start b := le_antisymm hstart' hstart
      have hend : stop a = stop b := le_antisymm (hstop heq) (hstop' heq.symm)
      obtain rfl := hends a b heq hend
      rw [ih h.tail h'.tail fun x => by rw [h.has_tail, h'.has_tail, hhas]]

end Separate

end PS4Droid
