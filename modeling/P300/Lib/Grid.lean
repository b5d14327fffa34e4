import Mathlib.Algebra.Order.Ring.Int
import Mathlib.Data.Int.DivMod
import Mathlib.Data.List.Basic
import Mathlib.Tactic.Ring

/-!
# Points of a grid

The points of a grid after one point and up to another one, in their order. Ranges that meet at a
point of the grid have each point once. The cell of a point begins at the last grid point up to it.
-/

namespace Grid

/-- `a + d`, `a + 2 d` and so on, up to `b`. -/
def points (d a b : Int) : List Int :=
  (List.range ((b - a) / d).toNat).map fun (k : ℕ) => a + ((k : Int) + 1) * d

variable {d a b c t : Int}

theorem points_of_le (hd : 0 < d) (h : b < a + d) : points d a b = [] := by
  have hdiv : (b - a) / d ≤ 0 := Int.lt_add_one_iff.mp (Int.ediv_lt_of_lt_mul hd (by omega))
  rw [points, Int.toNat_of_nonpos hdiv]
  rfl

theorem mem_points (hd : 0 < d) : t ∈ points d a b ↔ d ∣ t - a ∧ a < t ∧ t ≤ b := by
  rw [points, List.mem_map]
  constructor
  · rintro ⟨k, hk, rfl⟩
    rw [List.mem_range] at hk
    have hle : ((k : Int) + 1) ≤ (b - a) / d := by omega
    have hmul : ((k : Int) + 1) * d ≤ b - a := (Int.le_ediv_iff_mul_le hd).mp hle
    have hpos : 0 < ((k : Int) + 1) * d := Int.mul_pos (by omega) hd
    exact ⟨⟨(k : Int) + 1, by ring⟩, by omega, by omega⟩
  · rintro ⟨⟨q, hq⟩, hlt, hle⟩
    have hq0 : 0 < q := by
      by_contra hneg
      have : d * q ≤ 0 := Int.mul_nonpos_of_nonneg_of_nonpos hd.le (not_lt.mp hneg)
      omega
    have hqle : q ≤ (b - a) / d := (Int.le_ediv_iff_mul_le hd).mpr (by rw [mul_comm]; omega)
    refine ⟨(q - 1).toNat, List.mem_range.mpr (by omega), ?_⟩
    rw [Int.toNat_of_nonneg (by omega), sub_add_cancel, mul_comm, ← hq]
    omega

theorem length_points : (points d a b).length = ((b - a) / d).toNat := by
  rw [points, List.length_map, List.length_range]

/-- The first points are those up to the last one of them. -/
theorem take_points (hd : 0 < d) {n : ℕ} (hn : n ≤ (points d a b).length) :
    (points d a b).take n = points d a (a + n * d) := by
  rw [length_points] at hn
  rw [points, points, ← List.map_take, List.take_range, min_eq_left hn, add_sub_cancel_left,
    Int.mul_ediv_cancel _ hd.ne', Int.toNat_natCast]

/-- A range is cut at a point of the grid. -/
theorem points_append (hd : 0 < d) (hgrid : d ∣ b - a) (hab : a ≤ b) (hbc : b ≤ c) :
    points d a c = points d a b ++ points d b c := by
  obtain ⟨q, hq⟩ := hgrid
  have hq0 : 0 ≤ q := by
    by_contra hneg
    have : d * q < 0 := Int.mul_neg_of_pos_of_neg hd (not_le.mp hneg)
    omega
  have hb : b = a + (q.toNat : Int) * d := by
    rw [Int.toNat_of_nonneg hq0, mul_comm, ← hq]
    omega
  have hsplit : (c - a) / d = q + (c - b) / d := by
    rw [show c - a = c - b + d * q by omega, Int.add_mul_ediv_left _ _ hd.ne', add_comm]
  have hrest : 0 ≤ (c - b) / d := Int.ediv_nonneg (by omega) hd.le
  rw [points, points, points, hsplit,
    show (b - a) / d = q by rw [hq, Int.mul_ediv_cancel_left _ hd.ne'],
    Int.toNat_add hq0 hrest, List.range_add, List.map_append, List.map_map]
  congr 1
  refine List.map_congr_left fun k _ => ?_
  rw [Function.comp_apply, Nat.cast_add, Int.toNat_of_nonneg hq0]
  rw [hb, Int.toNat_of_nonneg hq0]
  ring

/-- A first part of the points that ends in `t` has all points up to `t`. -/
theorem eq_points_of_append (hd : 0 < d) {l l' : List Int} (h : points d a b = (l ++ [t]) ++ l') :
    l ++ [t] = points d a t := by
  have hlen : (l ++ [t]).length ≤ (points d a b).length := by
    rw [h, @List.length_append _ (l ++ [t])]
    exact Nat.le_add_right ..
  have htake : (points d a b).take (l ++ [t]).length = l ++ [t] := by rw [h, List.take_left]
  rw [take_points hd hlen] at htake
  have hlast : t = a + ((l ++ [t]).length : Int) * d := by
    have hget : (points d a (a + (l ++ [t]).length * d))[l.length]? = some t := by
      rw [htake, List.getElem?_append_right le_rfl, Nat.sub_self]
      rfl
    rw [points, List.getElem?_map] at hget
    obtain ⟨k, hk, hkt⟩ := Option.map_eq_some_iff.mp hget
    obtain ⟨_, hk⟩ := List.getElem?_eq_some_iff.mp hk
    rw [List.getElem_range] at hk
    rw [← hkt, ← hk, List.length_append, List.length_singleton, Nat.cast_add, Nat.cast_one]
  rw [← hlast] at htake
  exact htake.symm

/-! ## Cells -/

/-- `(x // d) * d` -/
def floor (d x : Int) : Int := x / d * d

variable {x y : Int}

theorem dvd_floor (d x : Int) : d ∣ floor d x := Int.dvd_mul_left _ _

theorem floor_le (hd : 0 < d) (x : Int) : floor d x ≤ x := Int.ediv_mul_le x hd.ne'

theorem lt_floor_add (hd : 0 < d) (x : Int) : x < floor d x + d := by
  have h := Int.lt_ediv_add_one_mul_self x hd
  rwa [add_mul, one_mul] at h

theorem floor_mono (hd : 0 < d) (h : x ≤ y) : floor d x ≤ floor d y :=
  Int.mul_le_mul_of_nonneg_right (Int.ediv_le_ediv hd h) hd.le

theorem floor_of_dvd (h : d ∣ t) : floor d t = t := Int.ediv_mul_cancel h

/-- The cell that begins at a grid point. -/
theorem floor_eq_iff (hd : 0 < d) (ht : d ∣ t) : floor d x = t ↔ t ≤ x ∧ x < t + d := by
  constructor
  · rintro rfl
    exact ⟨floor_le hd x, lt_floor_add hd x⟩
  · rintro ⟨hle, hlt⟩
    obtain ⟨q, rfl⟩ := ht
    have hq : x / d = q := by
      refine le_antisymm (Int.lt_add_one_iff.mp (Int.ediv_lt_of_lt_mul hd ?_))
        ((Int.le_ediv_iff_mul_le hd).mpr (by rwa [mul_comm]))
      rw [add_mul, one_mul, mul_comm q]
      exact hlt
    rw [floor, hq, mul_comm]

end Grid
