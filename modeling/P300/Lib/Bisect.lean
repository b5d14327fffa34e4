import Mathlib.Data.List.Basic
import Mathlib.Order.Defs.LinearOrder
import Mathlib.Order.Lattice

/-!
# Bisection

The search for the place behind all elements of a sorted list that are not greater than a given one.
It is the number of these elements, so it does not see what comes in at the end of the list above
the given one.
-/

namespace Bisect

variable {α : Type*} [LinearOrder α]

/-- The loop, on the bounds of the part that is still searched. -/
def search (l : List α) (x : α) : ℕ → ℕ → ℕ → ℕ
  | 0, lo, _ => lo
  | fuel + 1, lo, hi =>
    if lo < hi then
      let mid := (lo + hi) / 2
      match l[mid]? with
      | some a => if x < a then search l x fuel lo mid else search l x fuel (mid + 1) hi
      | none => lo
    else lo

/-- `bisect.bisect_right` -/
def bisectRight (l : List α) (x : α) : ℕ := search l x l.length 0 l.length

/-- What the search has excluded. -/
structure Between (l : List α) (x : α) (lo hi : ℕ) : Prop where
  le : lo ≤ hi
  le_length : hi ≤ l.length
  below : ∀ a ∈ l.take lo, a ≤ x
  above : ∀ a ∈ l.drop hi, x < a

variable {l l' : List α} {x y : α}

/-- The element in the middle decides about one half. -/
theorem Between.halve {lo hi mid : ℕ} (H : Between l x lo hi) (hl : l.Pairwise (· ≤ ·))
    (hlo : lo ≤ mid) (hhi : mid < hi) (hmid : mid < l.length) :
    (x < l[mid] → Between l x lo mid) ∧ (¬ x < l[mid] → Between l x (mid + 1) hi) := by
  rw [← List.take_append_drop mid l, List.drop_eq_getElem_cons hmid] at hl
  obtain ⟨-, hright, hleft⟩ := List.pairwise_append.mp hl
  constructor
  · refine fun hx => ⟨hlo, Nat.le_of_lt hmid, H.below, fun a ha => ?_⟩
    rw [List.drop_eq_getElem_cons hmid] at ha
    rcases List.mem_cons.mp ha with rfl | ha
    · exact hx
    · exact hx.trans_le ((List.pairwise_cons.mp hright).1 a ha)
  · refine fun hx => ⟨hhi, H.le_length, fun a ha => ?_, H.above⟩
    rw [List.take_succ_eq_append_getElem hmid] at ha
    rcases List.mem_append.mp ha with ha | ha
    · exact (hleft a ha _ List.mem_cons_self).trans (not_lt.mp hx)
    · exact List.mem_singleton.mp ha ▸ not_lt.mp hx

theorem Between.search (hl : l.Pairwise (· ≤ ·)) {fuel lo hi : ℕ} (H : Between l x lo hi)
    (hfuel : hi - lo ≤ fuel) :
    Between l x (search l x fuel lo hi) (search l x fuel lo hi) := by
  induction fuel generalizing lo hi with
  | zero =>
    have heq : lo = hi := by have := H.le; omega
    subst heq
    exact H
  | succ fuel ih =>
    rw [Bisect.search]
    by_cases hlt : lo < hi
    · have hmid : (lo + hi) / 2 < l.length := by have := H.le_length; omega
      obtain ⟨hbelow, habove⟩ := H.halve hl (by omega : lo ≤ (lo + hi) / 2) (by omega) hmid
      rw [if_pos hlt]
      dsimp only
      rw [List.getElem?_eq_getElem hmid]
      dsimp only
      by_cases hx : x < l[(lo + hi) / 2]
      · rw [if_pos hx]
        exact ih (hbelow hx) (by omega)
      · rw [if_neg hx]
        exact ih (habove hx) (by omega)
    · have heq : lo = hi := by have := H.le; omega
      subst heq
      rw [if_neg hlt]
      exact H

theorem between_bisectRight (hl : l.Pairwise (· ≤ ·)) (x : α) :
    Between l x (bisectRight l x) (bisectRight l x) :=
  Between.search hl ⟨Nat.zero_le _, Nat.le_refl _, by simp, by simp⟩ (by omega)

theorem bisectRight_eq_countP (hl : l.Pairwise (· ≤ ·)) (x : α) :
    bisectRight l x = l.countP (· ≤ x) := by
  have H := between_bisectRight hl x
  have htake : (l.take (bisectRight l x)).countP (· ≤ x) = bisectRight l x := by
    rw [List.countP_eq_length.mpr fun a ha => decide_eq_true (H.below a ha), List.length_take,
      Nat.min_eq_left H.le_length]
  have hdrop : (l.drop (bisectRight l x)).countP (· ≤ x) = 0 :=
    List.countP_eq_zero.mpr fun a ha => by simpa using H.above a ha
  have h : (l.take (bisectRight l x) ++ l.drop (bisectRight l x)).countP (· ≤ x) =
      (l.take (bisectRight l x)).countP (· ≤ x) + (l.drop (bisectRight l x)).countP (· ≤ x) :=
    List.countP_append
  rw [List.take_append_drop, htake, hdrop, Nat.add_zero] at h
  exact h.symm

/-- What is above the given element does not count. -/
theorem bisectRight_append (hl : (l ++ l').Pairwise (· ≤ ·)) (hx : ∀ a ∈ l', x < a) :
    bisectRight (l ++ l') x = bisectRight l x := by
  have hzero : l'.countP (· ≤ x) = 0 := List.countP_eq_zero.mpr fun a ha => by simpa using hx a ha
  rw [bisectRight_eq_countP hl, bisectRight_eq_countP (List.pairwise_append.mp hl).1,
    List.countP_append, hzero, Nat.add_zero]

theorem bisectRight_mono (hl : l.Pairwise (· ≤ ·)) (h : x ≤ y) :
    bisectRight l x ≤ bisectRight l y := by
  rw [bisectRight_eq_countP hl, bisectRight_eq_countP hl]
  exact List.countP_mono_left fun a _ ha => decide_eq_true ((of_decide_eq_true ha).trans h)

theorem bisectRight_le_length (hl : l.Pairwise (· ≤ ·)) (x : α) : bisectRight l x ≤ l.length :=
  (between_bisectRight hl x).le_length

theorem bisectRight_eq_length (hl : l.Pairwise (· ≤ ·)) (hx : ∀ a ∈ l, a ≤ x) :
    bisectRight l x = l.length := by
  rw [bisectRight_eq_countP hl, List.countP_eq_length]
  exact fun a ha => decide_eq_true (hx a ha)

/-! ## From the left -/

/-- The loop of the search for the place before all elements that are not less than the given
one. -/
def searchLeft (l : List α) (x : α) : ℕ → ℕ → ℕ → ℕ
  | 0, lo, _ => lo
  | fuel + 1, lo, hi =>
    if lo < hi then
      let mid := (lo + hi) / 2
      match l[mid]? with
      | some a => if a < x then searchLeft l x fuel (mid + 1) hi else searchLeft l x fuel lo mid
      | none => lo
    else lo

/-- `bisect.bisect_left` -/
def bisectLeft (l : List α) (x : α) : ℕ := searchLeft l x l.length 0 l.length

/-- It looks for the first `true` among the comparisons. -/
theorem searchLeft_eq (fuel lo hi : ℕ) :
    searchLeft l x fuel lo hi = search (l.map fun a => decide (x ≤ a)) false fuel lo hi := by
  induction fuel generalizing lo hi with
  | zero => rfl
  | succ fuel ih =>
    rw [searchLeft, Bisect.search]
    dsimp only
    rw [List.getElem?_map]
    cases l[(lo + hi) / 2]? with
    | none => rfl
    | some a =>
      dsimp only [Option.map_some]
      rw [ih, ih]
      by_cases hx : a < x
      · rw [if_pos hx, decide_eq_false hx.not_ge, if_neg (lt_irrefl false)]
      · rw [if_neg hx, decide_eq_true (not_lt.mp hx), if_pos Bool.false_lt_true]

theorem bisectLeft_eq_countP (hl : l.Pairwise (· ≤ ·)) : bisectLeft l x = l.countP (· < x) := by
  have hsorted : (l.map fun a => decide (x ≤ a)).Pairwise (· ≤ ·) :=
    List.pairwise_map.mpr (hl.imp fun hab => Bool.le_iff_imp.mpr fun ha =>
      decide_eq_true ((of_decide_eq_true ha).trans hab))
  have hsearch := bisectRight_eq_countP hsorted false
  rw [bisectRight, List.length_map, ← searchLeft_eq] at hsearch
  rw [bisectLeft, hsearch, List.countP_map]
  refine List.countP_congr fun a _ => ?_
  rw [Function.comp_apply, decide_eq_true_iff, decide_eq_true_iff]
  by_cases hx : x ≤ a
  · exact iff_of_false (by simp [hx]) hx.not_gt
  · exact iff_of_true (by simp [hx]) (not_le.mp hx)

/-- The elements before the place are those below. -/
theorem lt_bisectLeft_iff (hl : l.Pairwise (· ≤ ·)) {i : ℕ} (hi : i < l.length) :
    i < bisectLeft l x ↔ l[i] < x := by
  rw [bisectLeft_eq_countP hl]
  induction l generalizing i with
  | nil => cases hi
  | cons a l ih =>
    obtain ⟨ha, hl⟩ := List.pairwise_cons.mp hl
    rw [List.countP_cons]
    by_cases hax : a < x
    · rw [if_pos (decide_eq_true hax)]
      cases i with
      | zero => exact iff_of_true (Nat.succ_pos _) hax
      | succ i => exact Nat.succ_lt_succ_iff.trans (ih hl (Nat.lt_of_succ_lt_succ hi))
    · have hnone : l.countP (fun b => decide (b < x)) = 0 :=
        List.countP_eq_zero.mpr fun b hb h => hax ((ha b hb).trans_lt (of_decide_eq_true h))
      rw [if_neg (mt of_decide_eq_true hax), hnone]
      refine iff_of_false (Nat.not_lt_zero i) ?_
      cases i with
      | zero => exact hax
      | succ i =>
        exact fun h => hax ((ha _ (List.getElem_mem (Nat.lt_of_succ_lt_succ hi))).trans_lt h)

end Bisect
