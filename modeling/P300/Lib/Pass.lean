import P300.Lib.Causal

/-!
# Passes

A pass reads a list from the front, with a state, and writes one output for each input. Its output
is causal, and two passes that are once in the same state write the same from there on.
-/

namespace Pass

variable {σ α β : Type*} (f : σ → α → σ × β)

/-- The outputs. -/
def out : σ → List α → List β
  | _, [] => []
  | s, a :: l => (f s a).2 :: out (f s a).1 l

/-- The state after the pass. -/
def after (s : σ) (l : List α) : σ := l.foldl (fun s a => (f s a).1) s

variable {f} {s : σ} {l l' : List α}

theorem after_append : after f s (l ++ l') = after f (after f s l) l' := List.foldl_append

theorem out_append : out f s (l ++ l') = out f s l ++ out f (after f s l) l' := by
  induction l generalizing s with
  | nil => rfl
  | cons a l ih => exact congrArg _ ih

theorem length_out : (out f s l).length = l.length := by
  induction l generalizing s with
  | nil => rfl
  | cons a l ih => exact congrArg _ ih

theorem causal_out (f : σ → α → σ × β) (s : σ) : Causal (out f s) :=
  fun _ _ => ⟨_, out_append.symm⟩

/-- An output, from the state after the inputs before it. -/
theorem getElem?_out {i : ℕ} : (out f s l)[i]? = l[i]?.map fun a =>
    (f (after f s (l.take i)) a).2 := by
  induction l generalizing s i with
  | nil => rfl
  | cons a l ih =>
    cases i with
    | zero => rfl
    | succ i => exact ih

theorem mem_out {b : β} (h : b ∈ out f s l) : ∃ s', ∃ a ∈ l, b = (f s' a).2 := by
  obtain ⟨i, hi⟩ := List.mem_iff_getElem?.mp h
  rw [getElem?_out] at hi
  obtain ⟨a, ha, rfl⟩ := Option.map_eq_some_iff.mp hi
  exact ⟨_, a, List.mem_of_getElem? ha, rfl⟩

/-- What the outputs show of the inputs alone. -/
theorem map_out {γ : Type*} {g : β → γ} {h : α → γ} (hgh : ∀ s a, g (f s a).2 = h a) :
    (out f s l).map g = l.map h := by
  induction l generalizing s with
  | nil => rfl
  | cons a l ih => rw [out, List.map_cons, List.map_cons, hgh, ih]

theorem after_take_succ {i : ℕ} {a : α} (h : l[i]? = some a) :
    after f s (l.take (i + 1)) = (f (after f s (l.take i)) a).1 := by
  obtain ⟨hi, rfl⟩ := List.getElem?_eq_some_iff.mp h
  rw [List.take_succ_eq_append_getElem hi, after_append]
  rfl

end Pass
