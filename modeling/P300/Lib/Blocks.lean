import Mathlib.Algebra.BigOperators.Group.Finset.Basic
import Mathlib.Order.Interval.Finset.Nat

/-!
# Blocks that grow at their ends

A block of neighbouring positions out of the first `n`, with a weight at each position. A block
grows by the position before it or by the one behind it, and as long as it weighs less than all
positions there is one of them. A block that has grown only while it weighed less than a target
weighs less than the target without the position added last.
-/

namespace Blocks

structure Block (n : ℕ) where
  lo : ℕ
  hi : ℕ
  lo_le_hi : lo ≤ hi
  hi_lt : hi < n

namespace Block

variable {n : ℕ}

def positions (b : Block n) : Finset ℕ := Finset.Icc b.lo b.hi

/-- The number of positions outside. -/
def room (b : Block n) : ℕ := b.lo + (n - (b.hi + 1))

def single (k : ℕ) (h : k < n) : Block n := ⟨k, k, le_rfl, h⟩

def down (b : Block n) (_h : 0 < b.lo) : Block n :=
  ⟨b.lo - 1, b.hi, (Nat.sub_le ..).trans b.lo_le_hi, b.hi_lt⟩

def up (b : Block n) (h : b.hi + 1 < n) : Block n :=
  ⟨b.lo, b.hi + 1, b.lo_le_hi.trans (Nat.le_succ _), h⟩

theorem mem_positions {b : Block n} {k : ℕ} : k ∈ b.positions ↔ b.lo ≤ k ∧ k ≤ b.hi :=
  Finset.mem_Icc

theorem positions_single {k : ℕ} (h : k < n) : (single k h).positions = {k} := Finset.Icc_self k

end Block

/-- The second block is the first one with a neighbour of it. -/
inductive Grows {n : ℕ} : Block n → ℕ → Block n → Prop
  | down (b : Block n) (h : 0 < b.lo) : Grows b (b.lo - 1) (b.down h)
  | up (b : Block n) (h : b.hi + 1 < n) : Grows b (b.hi + 1) (b.up h)

section growth

variable {n k : ℕ} {b b' : Block n}

theorem Grows.not_mem (h : Grows b k b') : k ∉ b.positions := by
  rw [Block.mem_positions]
  cases h with
  | down h => omega
  | up h => omega

theorem Grows.positions_eq (h : Grows b k b') : b'.positions = insert k b.positions := by
  have hle := b.lo_le_hi
  ext i
  rw [Finset.mem_insert, Block.mem_positions, Block.mem_positions]
  cases h with
  | down h =>
    change b.lo - 1 ≤ i ∧ i ≤ b.hi ↔ _
    omega
  | up h =>
    change b.lo ≤ i ∧ i ≤ b.hi + 1 ↔ _
    omega

theorem Grows.room_eq (h : Grows b k b') : b'.room + 1 = b.room := by
  unfold Block.room
  cases h with
  | down h =>
    change b.lo - 1 + (n - (b.hi + 1)) + 1 = _
    omega
  | up h =>
    change b.lo + (n - (b.hi + 1 + 1)) + 1 = _
    omega

end growth

/-! ## Weights -/

section weight

variable {n k : ℕ} {b b' : Block n} {M : Type*} [AddCommMonoid M] {w : ℕ → M}

def Block.weight (w : ℕ → M) (b : Block n) : M := ∑ k ∈ b.positions, w k

theorem weight_single (w : ℕ → M) (h : k < n) : (Block.single k h).weight w = w k := by
  rw [Block.weight, Block.positions_single, Finset.sum_singleton]

theorem Grows.weight_eq (h : Grows b k b') : b'.weight w = b.weight w + w k := by
  rw [Block.weight, h.positions_eq, Finset.sum_insert h.not_mem, add_comm, Block.weight]

variable [Preorder M]

/-- A block that weighs less than all positions can grow. -/
theorem exists_room (h : b.weight w < ∑ k ∈ Finset.range n, w k) : 0 < b.lo ∨ b.hi + 1 < n := by
  by_contra hfull
  rw [not_or, not_lt, not_lt] at hfull
  have hall : b.positions = Finset.range n := by
    have hhi := b.hi_lt
    ext i
    rw [Block.mem_positions, Finset.mem_range]
    omega
  rw [Block.weight, hall] at h
  exact lt_irrefl _ h

/-- The block has grown from one position while it weighed less than the target; the second position
is the one added last. -/
inductive Filled (w : ℕ → M) (target : M) {k : ℕ} (hk : k < n) : Block n → ℕ → Prop
  | single : Filled w target hk (Block.single k hk) k
  | grow {b b' : Block n} {j i : ℕ} : Filled w target hk b j → b.weight w < target →
      Grows b i b' → Filled w target hk b' i

variable {target : M} {hk : k < n} {j : ℕ}

theorem Filled.start_mem (h : Filled w target hk b j) : k ∈ b.positions := by
  induction h with
  | single =>
    rw [Block.positions_single]
    exact Finset.mem_singleton_self k
  | grow _ _ hgrow ih =>
    rw [hgrow.positions_eq]
    exact Finset.mem_insert_of_mem ih

theorem Filled.last_mem (h : Filled w target hk b j) : j ∈ b.positions := by
  cases h with
  | single =>
    rw [Block.positions_single]
    exact Finset.mem_singleton_self k
  | grow _ _ hgrow =>
    rw [hgrow.positions_eq]
    exact Finset.mem_insert_self ..

/-- Without the position added last the block weighs less than the target. -/
theorem Filled.erase_lt (h : Filled w target hk b j) (hpos : 0 < target) :
    ∑ i ∈ b.positions.erase j, w i < target := by
  cases h with
  | single => rwa [Block.positions_single, Finset.erase_singleton, Finset.sum_empty]
  | grow _ hlt hgrow => rwa [hgrow.positions_eq, Finset.erase_insert hgrow.not_mem]

end weight

end Blocks
