import Mathlib.Algebra.Order.Field.Basic
import Mathlib.Tactic.LinearCombination

/-!
# Average-cost accounting

The books of one position that is held at its average cost: an increase moves the average, a
decrease realises the difference between its price and the average. Whatever the sequence of
increases and decreases, the realised profit is the cash that the position has returned so far plus
the cost of what is still held (`Book.Balanced`); once nothing is held, it is that cash.
-/

namespace AvgCost

variable {K : Type*} [Field K]

/-- The quantity held, its average cost, the realised profit, and the cash received less paid. -/
structure Book (K : Type*) where
  qty : K
  basis : K
  realized : K
  cash : K

/-- The average cost after the quantity has grown from `qty` to `after` at `price`. -/
def average (qty basis after price : K) : K := (qty * basis + (after - qty) * price) / after

namespace Book

/-- The books agree, for a position that is long (`side = 1`) or short (`side = -1`). -/
def Balanced (side : K) (b : Book K) : Prop := b.realized = b.cash + side * b.qty * b.basis

/-- The quantity grows to `after` at `price`. -/
def increase (side : K) (b : Book K) (after price : K) : Book K where
  qty := after
  basis := average b.qty b.basis after price
  realized := b.realized
  cash := b.cash - side * (after - b.qty) * price

/-- The quantity shrinks to `after` at `price`, and a fee is paid. -/
def decrease (side : K) (b : Book K) (after price fee : K) : Book K where
  qty := after
  basis := b.basis
  realized := b.realized + (side * (b.qty - after) * (price - b.basis) - fee)
  cash := b.cash + side * (b.qty - after) * price - fee

variable {side after : K} {b : Book K}

/-- A position that is opened at its price. -/
theorem balanced_open (side qty price : K) : Balanced side ⟨qty, price, 0, -(side * qty * price)⟩ :=
  (neg_add_cancel _).symm

theorem Balanced.increase (h : b.Balanced side) (price : K) (h0 : after ≠ 0) :
    (b.increase side after price).Balanced side := by
  have hb : after * average b.qty b.basis after price = b.qty * b.basis + (after - b.qty) * price :=
    mul_div_cancel₀ _ h0
  unfold Balanced at h ⊢
  simp only [Book.increase]
  linear_combination h - side * hb

theorem Balanced.decrease (h : b.Balanced side) (after price fee : K) :
    (b.decrease side after price fee).Balanced side := by
  unfold Balanced at h ⊢
  simp only [Book.decrease]
  linear_combination h

/-- With nothing held, the realised profit is the cash. -/
theorem Balanced.flat (h : b.Balanced side) (hq : b.qty = 0) : b.realized = b.cash := by
  rw [h, hq, mul_zero, zero_mul, add_zero]

end Book

/-- The average of positive costs is positive. -/
theorem average_pos [LinearOrder K] [IsStrictOrderedRing K] {qty basis after price : K}
    (hq : 0 ≤ qty) (hb : 0 < basis) (ha : qty < after) (hp : 0 < price) :
    0 < average qty basis after price := by
  have h1 : 0 ≤ qty * basis := mul_nonneg hq hb.le
  have h2 : 0 < (after - qty) * price := mul_pos (sub_pos.mpr ha) hp
  exact div_pos (add_pos_of_nonneg_of_pos h1 h2) (hq.trans_lt ha)

end AvgCost
