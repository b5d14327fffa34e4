import Mathlib.Algebra.BigOperators.Group.List.Basic
import Mathlib.Algebra.Order.Group.Defs
import Mathlib.Algebra.Order.Group.MinMax
import Mathlib.Tactic.Abel

/-!
# The overlap of an interval with cells

Cells that lie next to each other cut an interval into parts. What a cell has of it is what the
interval, clamped to the cell's upper end, gains over its lower end; so over cells that cover the
interval the parts add up to its length.
-/

namespace Overlap

variable {α : Type*} {a b l h x : α}

section clamp

variable [LinearOrder α]

/-- A point, moved into the interval. -/
def clamp (l h x : α) : α := max l (min h x)

theorem clamp_of_le (hx : x ≤ l) (hlh : l ≤ h) : clamp l h x = l := by
  rw [clamp, min_eq_right (hx.trans hlh), max_eq_left hx]

theorem clamp_of_ge (hx : h ≤ x) (hlh : l ≤ h) : clamp l h x = h := by
  rw [clamp, min_eq_left hx, max_eq_right hlh]

end clamp

theorem sum_range'_sub [AddCommGroup α] (f : ℕ → α) (i n : ℕ) :
    ((List.range' i n).map fun k => f (k + 1) - f k).sum = f (i + n) - f i := by
  induction n with
  | zero => rw [List.range'_zero, List.map_nil, List.sum_nil, Nat.add_zero, sub_self]
  | succ n ih =>
    rw [List.range'_1_concat, List.map_append, List.sum_append, ih, List.map_singleton,
      List.sum_singleton, Nat.add_assoc]
    abel

variable [AddCommGroup α] [LinearOrder α]

/-- `max(0, min(b, h) - max(a, l))` -/
def overlap (a b l h : α) : α := max 0 (min b h - max a l)

variable [IsOrderedAddMonoid α]

theorem overlap_eq (hab : a ≤ b) (hlh : l ≤ h) : overlap a b l h = clamp l h b - clamp l h a := by
  unfold overlap clamp
  rcases le_total b l with hbl | hlb
  · -- the cell lies below the interval
    rw [min_eq_left (hbl.trans hlh), max_eq_right (hab.trans hbl), max_eq_left (sub_nonpos.mpr hbl),
      min_eq_right (hbl.trans hlh), min_eq_right ((hab.trans hbl).trans hlh), max_eq_left hbl,
      max_eq_left (hab.trans hbl), sub_self]
  · rcases le_total h a with hha | hah
    · -- the cell lies above the interval
      rw [min_eq_right (hha.trans hab), max_eq_left (hlh.trans hha),
        max_eq_left (sub_nonpos.mpr hha), min_eq_left (hha.trans hab), min_eq_left hha,
        max_eq_right hlh, sub_self]
    · have hle : max a l ≤ min b h := max_le (le_min hab hah) (le_min hlb hlh)
      rw [max_eq_right (sub_nonneg.mpr hle), min_comm h b, max_eq_right (le_min hlb hlh),
        min_eq_right hah, max_comm l a]

/-- Cells that cover an interval share it out. -/
theorem sum_overlap {e : ℕ → α} {i n : ℕ} (he : ∀ k, e k ≤ e (k + 1)) (hlh : l ≤ h) (hl : e i ≤ l)
    (hh : h ≤ e (i + n)) : ((List.range' i n).map fun k => overlap (e k) (e (k + 1)) l h).sum =
      h - l := by
  have hparts : ∀ k, overlap (e k) (e (k + 1)) l h = clamp l h (e (k + 1)) - clamp l h (e k) :=
    fun k => overlap_eq (he k) hlh
  simp only [hparts]
  rw [sum_range'_sub (fun k => clamp l h (e k)), clamp_of_ge hh hlh, clamp_of_le hl hlh]

end Overlap
