import Mathlib.Data.List.Sublists
import Mathlib.Data.Nat.Choose.Basic

/-!
# Combinations

The sublists of a length, in the order of `itertools.combinations`: those with the first element
come first.
-/

namespace Combinations

variable {α : Type*} {a x : α} {l c : List α} {k : ℕ}

def combinations : ℕ → List α → List (List α)
  | 0, _ => [[]]
  | _ + 1, [] => []
  | k + 1, a :: l => (combinations k l).map (a :: ·) ++ combinations (k + 1) l

@[simp] theorem combinations_zero : combinations 0 l = [[]] := by cases l <;> rfl

theorem combinations_succ_cons :
    combinations (k + 1) (a :: l) = (combinations k l).map (a :: ·) ++ combinations (k + 1) l := rfl

example : combinations 2 [1, 2, 3] = [[1, 2], [1, 3], [2, 3]] := rfl

theorem combinations_perm (k : ℕ) (l : List α) :
    (combinations k l).Perm (List.sublistsLen k l) := by
  induction l generalizing k with
  | nil =>
    cases k with
    | zero => rw [combinations_zero, List.sublistsLen_zero]
    | succ k => rw [combinations, List.sublistsLen_succ_nil]
  | cons a l ih =>
    cases k with
    | zero => rw [combinations_zero, List.sublistsLen_zero]
    | succ k =>
      rw [combinations_succ_cons, List.sublistsLen_succ_cons]
      exact (((ih k).map _).append (ih (k + 1))).trans List.perm_append_comm

theorem mem_combinations : c ∈ combinations k l ↔ c.Sublist l ∧ c.length = k :=
  (combinations_perm k l).mem_iff.trans List.mem_sublistsLen

theorem length_combinations : (combinations k l).length = l.length.choose k :=
  (combinations_perm k l).length_eq.trans (List.length_sublistsLen k l)

/-- An element is in `k - 1` of the rest choose the others. -/
theorem countP_mem_combinations [DecidableEq α] (hl : l.Nodup) (hx : x ∈ l) :
    (combinations (k + 1) l).countP (x ∈ ·) = (l.length - 1).choose k := by
  induction l generalizing k with
  | nil => cases hx
  | cons a l ih =>
    obtain ⟨ha, hl⟩ := List.nodup_cons.mp hl
    rw [combinations_succ_cons, List.countP_append, List.countP_map, List.length_cons,
      Nat.add_sub_cancel]
    by_cases hxa : x = a
    · -- all combinations with the first element, and none of the others
      subst hxa
      have hall : (combinations k l).countP ((fun c => decide (x ∈ c)) ∘ (x :: ·)) =
          (combinations k l).length :=
        List.countP_eq_length.mpr fun c _ => decide_eq_true List.mem_cons_self
      have hnone : (combinations (k + 1) l).countP (fun c => decide (x ∈ c)) = 0 :=
        List.countP_eq_zero.mpr fun c hc h =>
          ha ((mem_combinations.mp hc).1.subset (of_decide_eq_true h))
      rw [hall, hnone, Nat.add_zero, length_combinations]
    · have hx : x ∈ l := (List.mem_cons.mp hx).resolve_left hxa
      have hrest : (fun c => decide (x ∈ c)) ∘ (a :: ·) = fun c => decide (x ∈ c) := by
        funext c
        exact decide_eq_decide.mpr (List.mem_cons.trans (or_iff_right hxa))
      have hpos : l.length = l.length - 1 + 1 :=
        (Nat.sub_add_cancel (List.length_pos_of_mem hx)).symm
      rw [hrest, ih hl hx]
      cases k with
      | zero => simp
      | succ k => rw [ih hl hx, hpos, Nat.choose_succ_succ, ← hpos]

end Combinations
