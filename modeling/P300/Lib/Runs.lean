import Mathlib.Data.List.Basic

/-!
# Every state of a run

A run folds a step over a list of inputs. Where a step from a good state leads to a good state
exactly if its input meets a condition, all states of a run are good exactly if every input meets
its condition in the state before it.
-/

namespace Runs

variable {σ α : Type*} {step : σ → α → σ}

/-- `Inv` is what holds of a state and of the inputs to come as long as all states have been
good. -/
theorem all_good_iff (Inv : List α → σ → Prop) (Good : σ → Prop) (Cond : σ → α → Prop)
    (hgood : ∀ l s, Inv l s → Good s)
    (hkeep : ∀ a l s, Inv (a :: l) s → Cond s a → Inv l (step s a))
    (hmeet : ∀ a l s, Inv (a :: l) s → Good (step s a) → Cond s a) {l : List α} {s : σ}
    (h : Inv l s) : (∀ n, Good ((l.take n).foldl step s)) ↔
      ∀ n a, l[n]? = some a → Cond ((l.take n).foldl step s) a := by
  induction l generalizing s with
  | nil =>
    refine iff_of_true (fun n => ?_) fun n a ha => by cases ha
    rw [List.take_nil]
    exact hgood _ s h
  | cons a l ih =>
    constructor
    · intro hall
      have ha : Cond s a := hmeet a l s h (hall 1)
      have hrest := (ih (hkeep a l s h ha)).mp fun n => hall (n + 1)
      intro n a' ha'
      cases n with
      | zero =>
        cases ha'
        exact ha
      | succ n => exact hrest n a' ha'
    · intro hall n
      cases n with
      | zero => exact hgood _ s h
      | succ n =>
        exact (ih (hkeep a l s h (hall 0 a rfl))).mpr (fun n a' ha' => hall (n + 1) a' ha') n

end Runs
