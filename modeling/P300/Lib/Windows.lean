import P300.Lib.Intervals
import Mathlib.Algebra.BigOperators.Group.List.Basic
import Mathlib.Algebra.Order.Ring.Int
import Mathlib.Algebra.Ring.Divisibility.Basic
import Mathlib.Data.Int.Interval
import Mathlib.Data.Set.Card
import Mathlib.Tactic.Linarith

/-!
# Windows on a grid

The points `base + step * k` are a grid. A list of windows, each beginning at a grid point, tells a
set of grid points exactly if its windows are in order, do not overlap and cover the points of the
set and no others. Windows of sets that follow one another are put together, and the holes of a
sorted list are such windows.
-/

namespace Windows

open Intervals

/-- The windows in order are those of the grid points with `P`. -/
structure Exact (step base : Int) (ws : List (Int × Int)) (P : Int → Prop) : Prop where
  start : ∀ w ∈ ws, step ∣ w.1 - base
  le : ∀ w ∈ ws, w.1 ≤ w.2
  separated : ws.Pairwise fun a b => a.2 < b.1
  covers : ∀ p, step ∣ p - base → (Covers ws p ↔ P p)

/-- The number of grid points of a window that begins at one. -/
def count (step : Int) (w : Int × Int) : Int := (w.2 - w.1) / step + 1

/-- The windows between neighbours that are more than one step apart. -/
def holes (step : Int) (l : List Int) : List (Int × Int) :=
  ((l.zip l.tail).filter fun p => p.2 - p.1 > step).map fun p => (p.1 + step, p.2 - step)

section Grid

variable {step base a b : Int}

theorem grid_add_step (ha : step ∣ a - base) : step ∣ a + step - base := by
  rw [add_sub_right_comm]
  exact dvd_add ha dvd_rfl

/-- The next grid point is one step away. -/
theorem add_step_le (ha : step ∣ a - base) (hb : step ∣ b - base) (h : a < b) : a + step ≤ b := by
  have hd : step ∣ b - a := by simpa using dvd_sub hb ha
  have hle : step ≤ b - a := Int.le_of_dvd (by omega) hd
  omega

end Grid

namespace Exact

variable {step base : Int} {ws ws' : List (Int × Int)} {P P' : Int → Prop}

theorem congr (H : Exact step base ws P) (h : ∀ p, step ∣ p - base → (P p ↔ P' p)) :
    Exact step base ws P' :=
  ⟨H.start, H.le, H.separated, fun p hp => (H.covers p hp).trans (h p hp)⟩

theorem nil (h : ∀ p, step ∣ p - base → ¬ P p) : Exact step base [] P where
  start := by simp
  le := by simp
  separated := .nil
  covers p hp := by simp [Covers, h p hp]

theorem singleton {a b : Int} (ha : step ∣ a - base) (hab : a ≤ b) :
    Exact step base [(a, b)] fun p => a ≤ p ∧ p ≤ b where
  start := by simpa using ha
  le := by simpa using hab
  separated := List.pairwise_singleton ..
  covers p _ := by simp [Covers]

/-- A window begins at a point of its set. -/
theorem start_of_mem (H : Exact step base ws P) {w : Int × Int} (hw : w ∈ ws) : P w.1 :=
  (H.covers _ (H.start w hw)).mp ⟨w, hw, le_rfl, H.le w hw⟩

theorem append (H : Exact step base ws P) (H' : Exact step base ws' P')
    (h : ∀ p p', P p → P' p' → p < p') : Exact step base (ws ++ ws') fun p => P p ∨ P' p where
  start w hw := (List.mem_append.mp hw).elim (H.start w) (H'.start w)
  le w hw := (List.mem_append.mp hw).elim (H.le w) (H'.le w)
  separated := by
    refine List.pairwise_append.mpr ⟨H.separated, H'.separated, fun w hw w' hw' => ?_⟩
    have hlt : w.1 < w'.1 := h _ _ (H.start_of_mem hw) (H'.start_of_mem hw')
    -- else the start of `w'` would be a point of both sets
    by_contra hge
    have hp : P w'.1 := (H.covers _ (H'.start w' hw')).mp ⟨w, hw, hlt.le, not_lt.mp hge⟩
    exact absurd (h _ _ hp (H'.start_of_mem hw')) (lt_irrefl _)
  covers p hp := by
    rw [← H.covers p hp, ← H'.covers p hp]
    simp only [Covers, List.mem_append, or_and_right, exists_or]

end Exact

/-! ## The holes of a list -/

section holes

variable {step base : Int} {l : List Int}

theorem holes_cons_cons (a b : Int) (l : List Int) :
    holes step (a :: b :: l) =
      (if b - a > step then [(a + step, b - step)] else []) ++ holes step (b :: l) := by
  rw [holes, List.tail_cons, List.zip_cons_cons, List.filter_cons]
  split
  · next h => rw [if_pos (of_decide_eq_true h), List.map_cons, List.singleton_append, holes,
      List.tail_cons]
  · next h => rw [if_neg (by simpa using h), List.nil_append, holes, List.tail_cons]

/-- The window between two neighbours has the grid points between them. -/
theorem exact_between (hstep : 0 < step) {a b : Int} (hga : step ∣ a - base)
    (hgb : step ∣ b - base) :
    Exact step base (if b - a > step then [(a + step, b - step)] else []) fun p =>
      a < p ∧ p < b := by
  split
  · next hgt =>
    have hle : a + step ≤ b - step := by
      have hd : step ∣ a + step - base := grid_add_step hga
      have := add_step_le hd hgb (by omega)
      omega
    refine (Exact.singleton (grid_add_step hga) hle).congr fun p hp => ?_
    constructor
    · intro h
      omega
    · intro h
      have hlo := add_step_le hga hp h.1
      have hhi := add_step_le hp hgb h.2
      omega
  · next hle =>
    refine .nil fun p hp h => ?_
    have hlo := add_step_le hga hp h.1
    have hhi := add_step_le hp hgb h.2
    omega

/-- The holes of a sorted list on the grid are the points between its members that it lacks. -/
theorem exact_holes (hstep : 0 < step) {a : Int} (hgrid : ∀ t ∈ a :: l, step ∣ t - base)
    (hsorted : (a :: l).Pairwise (· ≤ ·)) :
    Exact step base (holes step (a :: l)) fun p => a ≤ p ∧ p ∉ a :: l ∧ ∃ b ∈ a :: l, p ≤ b := by
  induction l generalizing a with
  | nil =>
    refine .nil fun p _ ⟨hle, hne, b, hb, hpb⟩ => hne ?_
    rw [List.mem_singleton] at hb ⊢
    omega
  | cons b l ih =>
    obtain ⟨ha, hsorted⟩ := List.pairwise_cons.mp hsorted
    have hab : a ≤ b := ha b List.mem_cons_self
    have hb : ∀ t ∈ b :: l, b ≤ t := fun t ht => (List.mem_cons.mp ht).elim (fun h => h.ge)
      ((List.pairwise_cons.mp hsorted).1 t)
    have hga : step ∣ a - base := hgrid a List.mem_cons_self
    have hgb : step ∣ b - base := hgrid b (List.mem_cons_of_mem _ List.mem_cons_self)
    have Hrest := ih (fun t ht => hgrid t (List.mem_cons_of_mem _ ht)) hsorted
    have Hfirst := exact_between hstep hga hgb
    rw [holes_cons_cons]
    refine (Hfirst.append Hrest fun p p' hp hp' => hp.2.trans_le hp'.1).congr fun p _ => ?_
    constructor
    · rintro (⟨hap, hpb⟩ | ⟨hbp, hne, c, hc, hpc⟩)
      · refine ⟨hap.le, fun hmem => ?_, b, List.mem_cons_of_mem _ List.mem_cons_self, hpb.le⟩
        rcases List.mem_cons.mp hmem with rfl | hmem
        · exact lt_irrefl _ hap
        · exact absurd (hb p hmem) (not_le.mpr hpb)
      · refine ⟨hab.trans hbp, fun hmem => ?_, c, List.mem_cons_of_mem _ hc, hpc⟩
        rcases List.mem_cons.mp hmem with rfl | hmem
        · obtain rfl : p = b := le_antisymm hab hbp
          exact hne List.mem_cons_self
        · exact hne hmem
    · rintro ⟨hap, hne, c, hc, hpc⟩
      rw [List.mem_cons, not_or] at hne
      have hap : a < p := lt_of_le_of_ne hap (Ne.symm hne.1)
      rcases lt_or_ge p b with hpb | hbp
      · exact .inl ⟨hap, hpb⟩
      · refine .inr ⟨hbp, hne.2, ?_⟩
        rcases List.mem_cons.mp hc with rfl | hc
        · exact absurd hpc (not_le.mpr hap)
        · exact ⟨c, hc, hpc⟩

end holes

/-! ## Counting -/

section count

variable {step base : Int}

/-- The grid points of a window. -/
theorem ncard_window (hstep : 0 < step) {w : Int × Int} (hstart : step ∣ w.1 - base)
    (hle : w.1 ≤ w.2) :
    ({p | step ∣ p - base ∧ w.1 ≤ p ∧ p ≤ w.2}.ncard : Int) = count step w := by
  have himage : {p | step ∣ p - base ∧ w.1 ≤ p ∧ p ≤ w.2} =
      (fun k => w.1 + step * k) '' (Finset.Icc 0 ((w.2 - w.1) / step) : Set Int) := by
    ext p
    simp only [Set.mem_ofPred_eq, Set.mem_image, Finset.mem_coe, Finset.mem_Icc]
    constructor
    · rintro ⟨hp, hlo, hhi⟩
      obtain ⟨k, hk⟩ : step ∣ p - w.1 := by simpa using dvd_sub hp hstart
      refine ⟨k, ⟨?_, ?_⟩, by omega⟩
      · have hnonneg : 0 ≤ step * k := by omega
        exact nonneg_of_mul_nonneg_right hnonneg hstep
      · rw [Int.le_ediv_iff_mul_le hstep, mul_comm]
        omega
    · rintro ⟨k, ⟨hk0, hk⟩, rfl⟩
      rw [Int.le_ediv_iff_mul_le hstep, mul_comm] at hk
      have hnonneg : 0 ≤ step * k := Int.mul_nonneg hstep.le hk0
      refine ⟨?_, by omega, by omega⟩
      rw [add_sub_right_comm]
      exact dvd_add hstart (dvd_mul_right ..)
  have hinj : Function.Injective fun k => w.1 + step * k := fun k k' h =>
    mul_left_cancel₀ hstep.ne' (add_left_cancel h)
  rw [himage, Set.ncard_image_of_injective _ hinj, Set.ncard_coe_finset, Int.card_Icc, count]
  have hdiv : 0 ≤ (w.2 - w.1) / step := Int.ediv_nonneg (by omega) hstep.le
  omega

theorem finite_covers {ws : List (Int × Int)} (P : Int → Prop) :
    {p | P p ∧ Covers ws p}.Finite := by
  induction ws with
  | nil => simp [Covers]
  | cons w ws ih =>
    refine ((Set.finite_Icc w.1 w.2).union ih).subset ?_
    rintro p ⟨hp, w', hw', hin⟩
    rcases List.mem_cons.mp hw' with rfl | hw'
    · exact .inl hin
    · exact .inr ⟨hp, w', hw', hin⟩

/-- The windows hold as many grid points as their counts tell. -/
theorem Exact.sum_count (hstep : 0 < step) {ws : List (Int × Int)} {P : Int → Prop}
    (H : Exact step base ws P) :
    ((ws.map (count step)).sum : Int) = {p | step ∣ p - base ∧ Covers ws p}.ncard := by
  obtain ⟨hstart, hle, hsep, -⟩ := H
  induction ws with
  | nil => simp [Covers]
  | cons w ws ih =>
    obtain ⟨hw, hsep⟩ := List.pairwise_cons.mp hsep
    have hsplit : {p | step ∣ p - base ∧ Covers (w :: ws) p} =
        {p | step ∣ p - base ∧ w.1 ≤ p ∧ p ≤ w.2} ∪ {p | step ∣ p - base ∧ Covers ws p} := by
      ext p
      simp only [Covers, Set.mem_ofPred_eq, Set.mem_union, List.mem_cons, exists_eq_or_imp,
        and_or_left]
    have hdisj : Disjoint {p | step ∣ p - base ∧ w.1 ≤ p ∧ p ≤ w.2}
        {p | step ∣ p - base ∧ Covers ws p} := by
      rw [Set.disjoint_left]
      rintro p ⟨-, -, hpw⟩ ⟨-, w', hw', hpw', -⟩
      exact absurd (hpw.trans_lt (hw w' hw')) (not_lt.mpr hpw')
    have hfinite : {p | step ∣ p - base ∧ w.1 ≤ p ∧ p ≤ w.2}.Finite :=
      (Set.finite_Icc w.1 w.2).subset fun p hp => hp.2
    rw [List.map_cons, List.sum_cons, hsplit, Set.ncard_union_eq hdisj hfinite (finite_covers _),
      Nat.cast_add, ncard_window hstep (hstart w List.mem_cons_self) (hle w List.mem_cons_self),
      ih (fun w' hw' => hstart w' (List.mem_cons_of_mem _ hw'))
        (fun w' hw' => hle w' (List.mem_cons_of_mem _ hw')) hsep]

end count

end Windows
