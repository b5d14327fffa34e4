import Mathlib.Data.List.Basic

/-!
# Causal series

A function on series is causal if reading more input only appends to its output. Its output at an
index then does not depend on what comes in after that output was written.
-/

/-- More input only appends to the output. -/
def Causal {α β : Type*} (f : List α → List β) : Prop := ∀ l l', f l <+: f (l ++ l')

namespace Causal

variable {α β γ σ : Type*} {f : List α → List β} {g : List β → List γ} {l l' : List α}

theorem of_prefix (hf : Causal f) (h : l <+: l') : f l <+: f l' := by
  obtain ⟨_, rfl⟩ := h
  exact hf l _

theorem comp (hg : Causal g) (hf : Causal f) : Causal fun l => g (f l) :=
  fun l l' => hg.of_prefix (hf l l')

theorem map (k : α → β) : Causal fun l => l.map k :=
  fun _ l' => ⟨l'.map k, (List.map_append ..).symm⟩

theorem length_le (hf : Causal f) (l l' : List α) : (f l).length ≤ (f (l ++ l')).length :=
  (hf l l').length_le

/-- What is written stays. -/
theorem getElem? (hf : Causal f) {i : ℕ} (hi : i < (f l).length) (l' : List α) :
    (f (l ++ l'))[i]? = (f l)[i]? := by
  obtain ⟨_, h⟩ := hf l l'
  rw [← h, List.getElem?_append_left hi]

theorem prefix_foldl {step : σ → α → σ} {tape : σ → List β}
    (h : ∀ s a, tape s <+: tape (step s a)) (l : List α) (s : σ) :
    tape s <+: tape (l.foldl step s) := by
  induction l generalizing s with
  | nil => exact List.prefix_rfl
  | cons a l ih => exact (h s a).trans (ih (step s a))

/-- A fold that only appends to its tape. -/
theorem foldl {step : σ → α → σ} {tape : σ → List β} (h : ∀ s a, tape s <+: tape (step s a))
    (init : σ) : Causal fun l => tape (l.foldl step init) := by
  intro l l'
  simp only [List.foldl_append]
  exact prefix_foldl h l' _

/-- Running values. -/
theorem scanl (step : β → α → β) (init : β) : Causal (List.scanl step init) := by
  intro l l'
  rw [List.scanl_append]
  exact List.prefix_append ..

theorem replicate_prefix {n k : ℕ} (h : n ≤ k) (b : β) (l : List β) :
    List.replicate n b <+: List.replicate k b ++ l := by
  obtain ⟨m, rfl⟩ := Nat.exists_eq_add_of_le h
  rw [List.replicate_add, List.append_assoc]
  exact List.prefix_append ..

/-- Smoothing: nothing before `period` inputs are there, a seed from these, then a step for each
input. -/
def seeded (period : ℕ) (seed : List α → β) (step : β → α → β) (l : List α) : List (Option β) :=
  if l.length < period then List.replicate l.length none
  else List.replicate (period - 1) none ++
    (List.scanl step (seed (l.take period)) (l.drop period)).map some

theorem length_seeded {period : ℕ} (hp : 0 < period) (seed : List α → β) (step : β → α → β)
    (l : List α) : (seeded period seed step l).length = l.length := by
  rw [seeded]
  split
  · exact List.length_replicate
  · rw [List.length_append, List.length_replicate, List.length_map, List.length_scanl,
      List.length_drop]
    omega

theorem seeded_causal {period : ℕ} (hp : 0 < period) (seed : List α → β) (step : β → α → β) :
    Causal (seeded period seed step) := by
  intro l l'
  by_cases hl : l.length < period
  · rw [seeded, if_pos hl, seeded]
    split
    · rw [List.length_append, List.replicate_add]
      exact List.prefix_append ..
    · exact replicate_prefix (by omega) none _
  · have hl' : ¬ (l ++ l').length < period := by rw [List.length_append]; omega
    rw [seeded, if_neg hl, seeded, if_neg hl',
      List.take_append_of_le_length (Nat.le_of_not_lt hl),
      List.drop_append_of_le_length (Nat.le_of_not_lt hl)]
    exact (List.prefix_append_right_inj _).mpr ((Causal.scanl _ _ _ _).map some)

/-- After the seed no value is missing. -/
theorem seeded_isSome {period i : ℕ} (seed : List α → β) (step : β → α → β) {l : List α}
    (hp : period ≤ i + 1) (hi : i < l.length) :
    ∃ v, (seeded period seed step l)[i]? = some (some v) := by
  have hj : i - (period - 1) < (List.scanl step (seed (l.take period)) (l.drop period)).length := by
    rw [List.length_scanl, List.length_drop]
    omega
  rw [seeded, if_neg (by omega), List.getElem?_append_right (by rw [List.length_replicate]; omega),
    List.length_replicate, List.getElem?_map, List.getElem?_eq_getElem hj]
  exact ⟨_, rfl⟩

theorem le_of_seeded {period i : ℕ} {seed : List α → β} {step : β → α → β} {l : List α} {v : β}
    (h : (seeded period seed step l)[i]? = some (some v)) : period ≤ i + 1 := by
  by_contra hlt
  rw [seeded] at h
  split at h
  · cases List.eq_of_mem_replicate (List.mem_of_getElem? h)
  · rw [List.getElem?_append_left (by rw [List.length_replicate]; omega)] at h
    cases List.eq_of_mem_replicate (List.mem_of_getElem? h)

/-- Series with the same beginning have the same output as far as it depends on that beginning. -/
theorem congr (hf : Causal f) {n i : ℕ} (h : l.take n = l'.take n)
    (hi : i < (f (l.take n)).length) :
    (f l)[i]? = (f l')[i]? := by
  have hl := hf.getElem? hi (l.drop n)
  rw [h] at hi
  have hl' := hf.getElem? hi (l'.drop n)
  rw [List.take_append_drop] at hl hl'
  rw [hl, hl', h]

theorem take (hf : Causal f) (l l' : List α) : (f (l ++ l')).take (f l).length = f l := by
  obtain ⟨_, h⟩ := hf l l'
  rw [← h, List.take_left]

theorem cons (hf : Causal f) (b : β) : Causal fun l => b :: f l :=
  fun l l' => (List.prefix_cons_inj b).mpr (hf l l')

/-- Each output is a function of the input up to its place. -/
theorem ofTake (k : List α → β) :
    Causal fun l => (List.range l.length).map fun i => k (l.take (i + 1)) := by
  intro l l'
  have hsame : ((List.range l.length).map fun i => k (l.take (i + 1))) =
      (List.range l.length).map fun i => k ((l ++ l').take (i + 1)) := by
    refine List.map_congr_left fun i hi => ?_
    have hi := List.mem_range.mp hi
    rw [List.take_append_of_le_length (by omega)]
  change ((List.range l.length).map fun i => k (l.take (i + 1))) <+:
    (List.range (l ++ l').length).map fun i => k ((l ++ l').take (i + 1))
  rw [hsame, List.length_append, List.range_add, List.map_append]
  exact List.prefix_append ..

/-- Outputs from adjacent inputs. -/
theorem adjacent (k : α → α → β) : Causal fun l => l.zipWith k l.tail := by
  intro l l'
  change l.zipWith k l.tail <+: (l ++ l').zipWith k (l ++ l').tail
  induction l with
  | nil => exact List.nil_prefix
  | cons a l ih =>
    cases l with
    | nil => exact List.nil_prefix
    | cons b l => exact (List.prefix_cons_inj (k a b)).mpr ih

end Causal
