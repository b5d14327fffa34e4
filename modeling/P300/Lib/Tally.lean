import Mathlib.Algebra.BigOperators.Finprod
import Mathlib.Algebra.Order.BigOperators.Group.Finset
import Mathlib.Tactic.Abel

/-!
# Tallies

A table of `n` cells that a loop over weighted items fills: each item adds its weight to its cell,
if it has one. What a cell has in the end is the sum over its items; against a weight function of
finite support that sum is a lower bound, and exact if no item of the cell is missing.
-/

namespace Tally

variable {α M : Type*} [AddCommMonoid M]

/-- The loop: `out[cell(a)] += weight(a)`. -/
def tally (n : ℕ) (cell : α → Option ℕ) (weight : α → M) (l : List α) : List M :=
  l.foldl (fun out a => match cell a with
    | some k => out.modify k (· + weight a)
    | none => out) (List.replicate n 0)

section loop

variable {n : ℕ} {cell : α → Option ℕ} {weight : α → M} {out : List M}

theorem length_tally (l : List α) : (tally n cell weight l).length = n := by
  suffices h : ∀ out : List M, (l.foldl (fun out a => match cell a with
      | some k => out.modify k (· + weight a)
      | none => out) out).length = out.length from
    (h _).trans List.length_replicate
  intro out
  induction l generalizing out with
  | nil => rfl
  | cons a l ih =>
    rw [List.foldl_cons, ih]
    split
    · exact List.length_modify ..
    · rfl

/-- The items of a cell. -/
def items (cell : α → Option ℕ) (k : ℕ) (l : List α) : List α := l.filter fun a => cell a = some k

theorem mem_items {k : ℕ} {l : List α} {a : α} : a ∈ items cell k l ↔ a ∈ l ∧ cell a = some k := by
  rw [items, List.mem_filter, decide_eq_true_eq]

theorem items_cons (k : ℕ) (a : α) (l : List α) :
    items cell k (a :: l) = if cell a = some k then a :: items cell k l else items cell k l := by
  rw [items, List.filter_cons]
  simp only [decide_eq_true_eq]
  rfl

theorem getElem?_foldl (k : ℕ) (l : List α) (out : List M) :
    (l.foldl (fun out a => match cell a with
      | some k => out.modify k (· + weight a)
      | none => out) out)[k]? = out[k]?.map (· + ((items cell k l).map weight).sum) := by
  induction l generalizing out with
  | nil => simp [items]
  | cons a l ih =>
    rw [List.foldl_cons, ih, items_cons]
    cases hcell : cell a with
    | none => simp
    | some j =>
      dsimp only
      rw [List.getElem?_modify]
      by_cases hj : j = k
      · simp [hj, Function.comp_def, add_assoc]
      · simp [hj]

/-- A cell has the weights of its items. -/
theorem getElem?_tally {k : ℕ} (hk : k < n) (l : List α) :
    (tally n cell weight l)[k]? = some ((items cell k l).map weight).sum := by
  rw [tally, getElem?_foldl, List.getElem?_replicate, if_pos hk, Option.map_some, zero_add]

/-- What is added to a cell is added to the table. -/
theorem sum_modify {k : ℕ} (hk : k < out.length) (d : M) :
    (out.modify k (· + d)).sum = out.sum + d := by
  obtain ⟨front, v, back, rfl, -, hmodify⟩ := List.exists_of_modify (· + d) hk
  rw [hmodify, List.sum_append, List.sum_append, List.sum_cons, List.sum_cons]
  abel

/-- The table has the weights of all items, if each has a cell. -/
theorem sum_tally {l : List α} (hcell : ∀ a ∈ l, ∃ k < n, cell a = some k) :
    (tally n cell weight l).sum = (l.map weight).sum := by
  suffices h : ∀ out : List M, out.length = n → (l.foldl (fun out a => match cell a with
      | some k => out.modify k (· + weight a)
      | none => out) out).sum = out.sum + (l.map weight).sum by
    rw [tally, h _ List.length_replicate, List.sum_replicate, nsmul_zero, zero_add]
  intro out hout
  induction l generalizing out with
  | nil => exact (add_zero _).symm
  | cons a l ih =>
    obtain ⟨⟨k, hk, ha⟩, hcell⟩ := List.forall_mem_cons.mp hcell
    rw [List.foldl_cons, ha, ih hcell _ ((List.length_modify ..).trans hout),
      sum_modify (hout ▸ hk), List.map_cons, List.sum_cons, add_assoc]

theorem sum_range_getD (out : List M) : ∑ k ∈ Finset.range out.length, out.getD k 0 = out.sum := by
  induction out with
  | nil => rfl
  | cons v out ih =>
    rw [List.length_cons, Finset.sum_range_succ', List.sum_cons, ← ih, add_comm]
    rfl

end loop

section support

variable {f : α → M} {l : List α} {s : Set α}

/-- The items are all that weighs something. -/
theorem sum_eq_finsum (hl : l.Nodup) (hs : ∀ a ∈ l, a ∈ s) (hall : ∀ a ∈ s, f a ≠ 0 → a ∈ l) :
    (l.map f).sum = ∑ᶠ a ∈ s, f a := by
  classical
  rw [← List.sum_toFinset f hl]
  refine (finsum_mem_eq_sum_of_inter_support_eq f ?_).symm
  ext a
  rw [Set.mem_inter_iff, Set.mem_inter_iff, Function.mem_support, Finset.mem_coe, List.mem_toFinset]
  exact ⟨fun h => ⟨hall a h.1 h.2, h.2⟩, fun h => ⟨hs a h.1, h.2⟩⟩

/-- Some items are a lower bound. -/
theorem sum_le_finsum [PartialOrder M] [IsOrderedAddMonoid M] (hfin : f.support.Finite)
    (hnonneg : ∀ a, 0 ≤ f a) (hl : l.Nodup) (hs : ∀ a ∈ l, a ∈ s) :
    (l.map f).sum ≤ ∑ᶠ a ∈ s, f a := by
  classical
  have hmem : (s ∩ f.support).Finite := hfin.subset Set.inter_subset_right
  rw [← List.sum_toFinset f hl, finsum_mem_eq_sum_of_inter_support_eq f
    (t := hmem.toFinset ∪ l.toFinset) ?_]
  · exact Finset.sum_le_sum_of_subset_of_nonneg Finset.subset_union_right fun a _ _ => hnonneg a
  · ext a
    simp only [Set.mem_inter_iff, Finset.coe_union, Set.mem_union, Finset.mem_coe,
      Set.Finite.mem_toFinset, List.mem_toFinset]
    exact ⟨fun h => ⟨.inl h, h.2⟩, fun h => ⟨h.1.elim (·.1) (hs a), h.2⟩⟩

end support

end Tally
