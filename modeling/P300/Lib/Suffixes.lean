import Mathlib.Data.List.Basic

/-!
# Folds of suffixes

A table that has at index `r` the fold of the last `r` elements of a list. With one more element,
each entry moves on by one, and the start comes in front.
-/

namespace Suffixes

variable {σ α : Type*} {f : σ → α → σ} {init : σ} {l : List α} {n r : ℕ}

/-- The fold of the last `r` elements. -/
def last (f : σ → α → σ) (init : σ) (l : List α) (r : ℕ) : σ := (l.drop (l.length - r)).foldl f init

/-- The folds of the last 0 to `n - 1` elements. -/
def table (f : σ → α → σ) (init : σ) (l : List α) (n : ℕ) : List σ :=
  (List.range n).map (last f init l)

theorem last_zero : last f init l 0 = init :=
  by rw [last, Nat.sub_zero, List.drop_length, List.foldl_nil]

theorem last_snoc (a : α) : last f init (l ++ [a]) (r + 1) = f (last f init l r) a := by
  rw [last, last, List.length_append, List.length_singleton, Nat.add_sub_add_right,
    List.drop_append_of_le_length (Nat.sub_le ..), List.foldl_append, List.foldl_cons,
    List.foldl_nil]

theorem length_table : (table f init l n).length = n :=
  by rw [table, List.length_map, List.length_range]

theorem table_snoc (a : α) :
    table f init (l ++ [a]) (n + 1) = init :: (table f init l n).map fun s => f s a := by
  rw [table, List.range_succ_eq_map, List.map_cons, last_zero, table, List.map_map, List.map_map]
  exact congrArg _ (List.map_congr_left fun r _ => last_snoc a)

theorem take_table (m : ℕ) : (table f init l n).take m = table f init l (min m n) := by
  rw [table, table, ← List.map_take, List.take_range]

theorem getElem?_table (h : r < n) : (table f init l n)[r]? = some (last f init l r) := by
  rw [table, List.getElem?_map, List.getElem?_range h]
  rfl

theorem forall_mem_table {P : σ → Prop} (hinit : P init) (hstep : ∀ s a, P s → P (f s a)) :
    ∀ s ∈ table f init l n, P s := by
  have hfold : ∀ suffix : List α, P (suffix.foldl f init) := by
    intro suffix
    induction suffix generalizing init with
    | nil => exact hinit
    | cons a suffix ih => exact ih (hstep init a hinit)
  intro s hs
  obtain ⟨r, -, rfl⟩ := List.mem_map.mp hs
  exact hfold _

end Suffixes
