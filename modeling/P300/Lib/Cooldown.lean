import Mathlib.Data.List.Basic
import Mathlib.Data.Int.Order.Basic
import P300.Lib.Sorted

/-!
# Thinning by a cooldown

Of the events at the places of an ascending list the first one is kept, and each later one that is
at least a cooldown away from the last one kept. An event without another one in the cooldown before
it is kept whatever came before, and so are the same events from there on: the thinning
synchronises.
-/

namespace Cooldown

/-- The place lies in the cooldown of the last event kept. -/
def Silent (c : ℤ) (last : Option ℕ) (i : ℕ) : Prop := ∃ k ∈ last, (i : ℤ) - k < c

instance (c : ℤ) (last : Option ℕ) (i : ℕ) : Decidable (Silent c last i) :=
  match last with
  | none => isFalse fun ⟨_, h, _⟩ => by cases h
  | some k => decidable_of_iff ((i : ℤ) - k < c) (by simp [Silent])

/-- The events that are kept. -/
def thin (c : ℤ) : Option ℕ → List ℕ → List ℕ
  | _, [] => []
  | last, i :: l => if Silent c last i then thin c last l else i :: thin c (some i) l

variable {c : ℤ} {last : Option ℕ} {l l' before after : List ℕ} {f i n : ℕ}

@[simp] theorem thin_nil : thin c last [] = [] := rfl

theorem thin_cons_of_silent (h : Silent c last i) : thin c last (i :: l) = thin c last l := if_pos h

theorem thin_cons_of_not_silent (h : ¬ Silent c last i) :
    thin c last (i :: l) = i :: thin c (some i) l :=
  if_neg h

theorem thin_sublist (c : ℤ) (last : Option ℕ) (l : List ℕ) : (thin c last l).Sublist l := by
  induction l generalizing last with
  | nil => exact .slnil
  | cons i l ih =>
    rw [thin]
    split
    · exact (ih last).cons i
    · exact (ih (some i)).cons_cons i

/-- Events that are kept are a cooldown apart, also from the last one before. -/
theorem thin_spaced (hl : l.Pairwise (· < ·)) (hlast : ∀ k ∈ last, ∀ i ∈ l, k < i) :
    (thin c last l).Pairwise (fun a b : ℕ => c ≤ (b : ℤ) - a) ∧
      ∀ k ∈ last, ∀ i ∈ thin c last l, c ≤ (i : ℤ) - k := by
  induction l generalizing last with
  | nil => simp
  | cons i l ih =>
    obtain ⟨hi, hl⟩ := List.pairwise_cons.mp hl
    by_cases h : Silent c last i
    · rw [thin_cons_of_silent h]
      exact ih hl fun k hk j hj => hlast k hk j (List.mem_cons_of_mem i hj)
    · obtain ⟨hspaced, hnext⟩ := @ih (some i) hl (by simpa using hi)
      rw [thin_cons_of_not_silent h]
      refine ⟨List.pairwise_cons.mpr ⟨hnext i rfl, hspaced⟩, fun k hk j hj => ?_⟩
      have hki : c ≤ (i : ℤ) - k := by
        by_contra hlt
        exact h ⟨k, hk, by omega⟩
      rcases List.mem_cons.mp hj with rfl | hj
      · exact hki
      · have := hi j ((thin_sublist c (some i) l).subset hj)
        omega

/-- An event that is dropped lies in the cooldown of one that is kept. -/
theorem silent_of_dropped (hl : l.Pairwise (· < ·)) (hlast : ∀ k ∈ last, ∀ i ∈ l, k < i)
    (hi : i ∈ l) (hdrop : i ∉ thin c last l) :
    ∃ k, (k ∈ last ∨ k ∈ thin c last l) ∧ k < i ∧ (i : ℤ) - k < c := by
  induction l generalizing last with
  | nil => cases hi
  | cons j l ih =>
    obtain ⟨hj, hl⟩ := List.pairwise_cons.mp hl
    by_cases h : Silent c last j
    · rw [thin_cons_of_silent h] at hdrop ⊢
      rcases List.mem_cons.mp hi with rfl | hi
      · obtain ⟨k, hk, hlt⟩ := h
        exact ⟨k, .inl hk, hlast k hk i List.mem_cons_self, hlt⟩
      · exact ih hl (fun k hk m hm => hlast k hk m (List.mem_cons_of_mem j hm)) hi hdrop
    · rw [thin_cons_of_not_silent h] at hdrop ⊢
      obtain ⟨hij, hdrop⟩ := not_or.mp (mt List.mem_cons.mpr hdrop)
      obtain ⟨k, hk, hki, hlt⟩ := @ih (some j) hl (by simpa using hj)
        ((List.mem_cons.mp hi).resolve_left hij) hdrop
      refine ⟨k, .inr ?_, hki, hlt⟩
      rcases hk with hk | hk
      · exact Option.some.inj hk ▸ List.mem_cons_self
      · exact List.mem_cons_of_mem j hk

/-- The events kept are a cooldown apart, and those dropped lie in the cooldown of one that is
kept. -/
structure Thinned (c : ℤ) (events kept : List ℕ) : Prop where
  sublist : kept.Sublist events
  spaced : kept.Pairwise fun a b : ℕ => c ≤ (b : ℤ) - a
  dropped : ∀ i ∈ events, i ∉ kept → ∃ k ∈ kept, k < i ∧ (i : ℤ) - k < c

theorem thinned_thin (c : ℤ) (hl : l.Pairwise (· < ·)) : Thinned c l (thin c none l) where
  sublist := thin_sublist c none l
  spaced := (thin_spaced hl (by simp)).1
  dropped i hi hdrop := by
    obtain ⟨k, hk, hki, hlt⟩ := silent_of_dropped hl (by simp) hi hdrop
    exact ⟨k, hk.resolve_left (by simp), hki, hlt⟩

/-- An event that is fresh is kept, and decides about those after it. -/
theorem thin_append_cons (hlast : ∀ k ∈ last, c ≤ (f : ℤ) - k)
    (hbefore : ∀ k ∈ before, c ≤ (f : ℤ) - k) :
    thin c last (before ++ f :: after) = thin c last before ++ f :: thin c (some f) after := by
  induction before generalizing last with
  | nil =>
    refine thin_cons_of_not_silent fun ⟨k, hk, hlt⟩ => ?_
    have := hlast k hk
    omega
  | cons i before ih =>
    obtain ⟨hi, hbefore⟩ := List.forall_mem_cons.mp hbefore
    rw [List.cons_append]
    by_cases h : Silent c last i
    · rw [thin_cons_of_silent h, thin_cons_of_silent h, ih hlast hbefore]
    · rw [thin_cons_of_not_silent h, thin_cons_of_not_silent h, ih (by simpa using hi) hbefore,
        List.cons_append]

/-- What is kept from a fresh event on. -/
theorem thin_filter_ge (hl : l.Pairwise (· < ·)) (hf : f ∈ l)
    (hfresh : ∀ k ∈ l, k < f → c ≤ (f : ℤ) - k) :
    (thin c none l).filter (f ≤ ·) = f :: thin c (some f) (l.filter (f < ·)) := by
  obtain ⟨after, hsplit⟩ := Sorted.split hl hf
  have hbefore : ∀ k ∈ l.filter (fun d => d < f), k ∈ l ∧ k < f := by simp
  have hafter : ∀ k ∈ after, f < k := by
    rw [hsplit] at hl
    exact (List.pairwise_cons.mp (List.pairwise_append.mp hl).2.1).1
  have hrest : l.filter (f < ·) = after := by
    rw [hsplit, List.filter_append, List.filter_cons_of_neg (by simp),
      List.filter_eq_nil_iff.mpr fun k hk =>
        by simpa using Nat.le_of_lt (hbefore k hk).2, List.nil_append]
    exact List.filter_eq_self.mpr fun k hk => decide_eq_true (hafter k hk)
  have hthin : thin c none (l.filter (fun d => d < f) ++ f :: after) =
      thin c none (l.filter fun d => d < f) ++ f :: thin c (some f) after :=
    thin_append_cons (by simp) fun k hk => hfresh k (hbefore k hk).1 (hbefore k hk).2
  rw [hrest, ← hsplit] at *
  rw [hthin, List.filter_append, List.filter_cons_of_pos (by simp),
    List.filter_eq_nil_iff.mpr fun k hk => by
      simpa using (hbefore k ((thin_sublist c none _).subset hk)).2, List.nil_append]
  exact congrArg _ (List.filter_eq_self.mpr fun k hk =>
    decide_eq_true (Nat.le_of_lt (hafter k ((thin_sublist c (some f) after).subset hk))))

/-- Two histories with a fresh event in common and the same events after it. -/
theorem thin_sync (hl : l.Pairwise (· < ·)) (hl' : l'.Pairwise (· < ·)) (hf : f ∈ l) (hf' : f ∈ l')
    (hfresh : ∀ k ∈ l, k < f → c ≤ (f : ℤ) - k) (hfresh' : ∀ k ∈ l', k < f → c ≤ (f : ℤ) - k)
    (hafter : ∀ k, f < k → (k ∈ l ↔ k ∈ l')) :
    (thin c none l).filter (f ≤ ·) = (thin c none l').filter (f ≤ ·) := by
  have hsame : l.filter (f < ·) = l'.filter (f < ·) := by
    refine Sorted.eq_of_mem_iff (hl.filter _) (hl'.filter _) fun k => ?_
    rw [List.mem_filter, List.mem_filter]
    exact and_congr_left fun hk => hafter k (of_decide_eq_true hk)
  rw [thin_filter_ge hl hf hfresh, thin_filter_ge hl' hf' hfresh', hsame]

/-- A history that begins elsewhere. -/
theorem thin_map_add (n : ℕ) :
    thin c (last.map (n + ·)) (l.map (n + ·)) = (thin c last l).map (n + ·) := by
  induction l generalizing last with
  | nil => rfl
  | cons i l ih =>
    have hsilent : Silent c (last.map (n + ·)) (n + i) ↔ Silent c last i := by
      cases last with
      | none => simp [Silent]
      | some k =>
        simp only [Silent, Option.map_some, Option.mem_some_iff, exists_eq_left']
        omega
    rw [List.map_cons, thin, thin, ih]
    by_cases h : Silent c last i
    · rw [if_pos h, if_pos (hsilent.mpr h)]
    · rw [if_neg h, if_neg (hsilent.not.mpr h), List.map_cons]
      exact congrArg _ (@ih (some i))

/-- A window that begins at the place `n` and misses events in its first `w` places keeps the same
events from a fresh one on. -/
theorem thin_window {w : ℕ} {window : List ℕ} (hl : l.Pairwise (· < ·))
    (hwindow : window.Pairwise (· < ·)) (hmem : ∀ i, i ∈ window ↔ w ≤ i ∧ n + i ∈ l) (hf : f ∈ l)
    (hnf : n + w ≤ f) (hfresh : ∀ k ∈ l, k < f → c ≤ (f : ℤ) - k) :
    (thin c none l).filter (f ≤ ·) = ((thin c none window).map (n + ·)).filter (f ≤ ·) := by
  have hmem' : ∀ k, k ∈ window.map (n + ·) ↔ n + w ≤ k ∧ k ∈ l := by
    intro k
    rw [List.mem_map]
    constructor
    · rintro ⟨i, hi, rfl⟩
      obtain ⟨hw, hil⟩ := (hmem i).mp hi
      exact ⟨by omega, hil⟩
    · rintro ⟨hle, hk⟩
      refine ⟨k - n, (hmem _).mpr ⟨by omega, ?_⟩, by omega⟩
      rwa [Nat.add_sub_of_le (by omega)]
  rw [← @thin_map_add c none]
  refine thin_sync hl (List.pairwise_map.mpr (hwindow.imp fun h => by omega)) hf
    ((hmem' f).mpr ⟨hnf, hf⟩) hfresh (fun k hk => hfresh k ((hmem' k).mp hk).2) fun k hk => ?_
  exact ((hmem' k).trans (and_iff_right (by omega))).symm

end Cooldown
