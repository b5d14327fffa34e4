import Mathlib.Data.List.DropRight
import Mathlib.Data.List.Nodup
import Mathlib.Data.List.Perm.Basic
import Mathlib.Data.List.Sort
import Mathlib.Order.Lattice
import Mathlib.Tactic.ByContra

/-!
# Lists in order

A list in strict order is known by its members. What holds up to some element of a list holds of the
elements that it takes from the front, what lasts from some element on holds of those dropped from
the back, and the first hit of a search is the hit of the least key.
-/

namespace Sorted

/-! ## Members -/

section members

variable {τ : Type*} [Preorder τ] {l l' : List τ}

/-- Two lists in order with the same members. -/
theorem eq_of_mem_iff (hl : l.Pairwise (· < ·)) (hl' : l'.Pairwise (· < ·))
    (hmem : ∀ t, t ∈ l ↔ t ∈ l') :
    l = l' :=
  ((List.perm_ext_iff_of_nodup (hl.imp ne_of_lt) (hl'.imp ne_of_lt)).mpr hmem).eq_of_pairwise
    (fun _ _ _ _ hab hba => absurd hab hba.not_gt) hl hl'

/-- A list up to one of its members. -/
theorem split [DecidableLT τ] (hl : l.Pairwise (· < ·)) {t : τ} (ht : t ∈ l) :
    ∃ rest, l = (l.filter fun d => d < t) ++ t :: rest := by
  induction l with
  | nil => cases ht
  | cons a l ih =>
    obtain ⟨ha, hl⟩ := List.pairwise_cons.mp hl
    rcases List.mem_cons.mp ht with rfl | ht
    · have hnone : (t :: l).filter (fun d => d < t) = [] := by
        refine List.filter_eq_nil_iff.mpr fun d hd => ?_
        rcases List.mem_cons.mp hd with rfl | hd
        · simp
        · simpa using (ha d hd).not_gt
      exact ⟨l, by rw [hnone]; rfl⟩
    · obtain ⟨rest, hrest⟩ := ih hl ht
      refine ⟨rest, ?_⟩
      rw [List.filter_cons_of_pos (by simpa using ha t ht), List.cons_append, ← hrest]

end members

/-! ## The front of a list -/

theorem takeWhile_eq_filter {α : Type*} {p : α → Bool} {l : List α}
    (h : l.Pairwise fun a b => p b → p a) : l.takeWhile p = l.filter p := by
  induction l with
  | nil => rfl
  | cons a l ih =>
    obtain ⟨ha, hl⟩ := List.pairwise_cons.mp h
    by_cases hp : p a
    · rw [List.takeWhile_cons_of_pos hp, List.filter_cons_of_pos hp, ih hl]
    · rw [List.takeWhile_cons_of_neg hp, List.filter_cons_of_neg hp, eq_comm,
        List.filter_eq_nil_iff]
      exact fun b hb hpb => hp (ha b hb hpb)

/-- The elements that satisfy the property, and then the others. -/
theorem filter_append_filter {α : Type*} {p : α → Prop} [DecidablePred p] {l : List α}
    (h : l.Pairwise fun a b => p b → p a) : l.filter (p ·) ++ l.filter (¬ p ·) = l := by
  induction l with
  | nil => rfl
  | cons a l ih =>
    obtain ⟨ha, hl⟩ := List.pairwise_cons.mp h
    by_cases hp : p a
    · rw [List.filter_cons_of_pos (by simpa using hp), List.filter_cons_of_neg (by simpa using hp),
        List.cons_append, ih hl]
    · rw [List.filter_cons_of_neg (by simpa using hp), List.filter_cons_of_pos (by simpa using hp),
        List.filter_eq_nil_iff.mpr (by simpa using fun b hb => mt (ha b hb) hp),
        List.filter_eq_self.mpr (by simpa using fun b hb => mt (ha b hb) hp), List.nil_append]

/-- What is not among the first elements comes after each of them. -/
theorem mem_take_or_lt {α τ : Type*} [LT τ] {key : α → τ} {l : List α} {n : ℕ} {a last : α}
    (hl : l.Pairwise fun a b => key a < key b) (hlast : last ∈ l.take n) (ha : a ∈ l) :
    a ∈ l.take n ∨ key last < key a := by
  rw [← List.take_append_drop n l] at hl ha
  rcases List.mem_append.mp ha with ha | ha
  · exact .inl ha
  · exact .inr ((List.pairwise_append.mp hl).2.2 _ hlast _ ha)

/-- Where no two elements have one key, a key is the key of one element. -/
theorem filter_key_eq_of_nodup {α κ : Type*} [DecidableEq κ] {key : α → κ} {l : List α} {a : α}
    (hl : (l.map key).Nodup) (ha : a ∈ l) : l.filter (fun b => key b = key a) = [a] := by
  induction l with
  | nil => cases ha
  | cons b l ih =>
    obtain ⟨hb, hl⟩ := List.nodup_cons.mp hl
    rcases List.mem_cons.mp ha with rfl | ha
    · have hnone : l.filter (fun b => key b = key a) = [] := by
        refine List.filter_eq_nil_iff.mpr fun c hc h => hb ?_
        exact of_decide_eq_true h ▸ List.mem_map_of_mem hc
      rw [List.filter_cons_of_pos (by simp), hnone]
    · have hne : key b ≠ key a := fun h => hb (h ▸ List.mem_map_of_mem ha)
      rw [List.filter_cons_of_neg (by simpa using hne), ih hl ha]

/-- A key of a list in strict order is the key of one element. -/
theorem filter_key_eq {α τ : Type*} [Preorder τ] [DecidableEq τ] {key : α → τ} {l : List α} {a : α}
    (hl : l.Pairwise fun a b => key a < key b) (ha : a ∈ l) :
    l.filter (fun b => key b = key a) = [a] :=
  filter_key_eq_of_nodup (List.pairwise_map.mpr (hl.imp ne_of_lt)) ha

/-! ## The back of a list -/

/-- What is dropped from the back of a list in which the property lasts is all that has it. -/
theorem mem_rdropWhile_iff {α : Type*} {p : α → Bool} {l : List α} {a : α}
    (h : l.Pairwise fun a b => p a → p b) : a ∈ l.rdropWhile p ↔ a ∈ l ∧ ¬ p a := by
  induction l using List.reverseRecOn with
  | nil => simp
  | append_singleton l x ih =>
    obtain ⟨hl, -, hx⟩ := List.pairwise_append.mp h
    by_cases hp : p x
    · rw [List.rdropWhile_concat_pos _ _ _ hp, ih hl, List.mem_append, List.mem_singleton]
      refine and_congr_left fun hpa => (or_iff_left ?_).symm
      rintro rfl
      exact hpa hp
    · rw [List.rdropWhile_concat_neg _ _ _ hp]
      refine (and_iff_left_of_imp fun ha hpa => ?_).symm
      rcases List.mem_append.mp ha with ha | ha
      · exact hp (hx a ha x List.mem_cons_self hpa)
      · exact hp (List.mem_singleton.mp ha ▸ hpa)

/-! ## Sorting -/

section sort

variable {α : Type*} (r : α → α → Prop) [DecidableRel r] (p : α → Bool)

theorem filter_orderedInsert_of_neg {a : α} (ha : ¬ p a) (l : List α) :
    (l.orderedInsert r a).filter p = l.filter p := by
  induction l with
  | nil => rw [List.orderedInsert_nil, List.filter_cons_of_neg ha]
  | cons b l ih =>
    rw [List.orderedInsert_cons]
    split
    · rw [List.filter_cons_of_neg ha]
    · rw [List.filter_cons, ih, List.filter_cons]

variable [IsTrans α r] {l : List α}

theorem filter_orderedInsert_of_pos {a : α} (ha : p a) (hl : l.Pairwise r) :
    (l.orderedInsert r a).filter p = (l.filter p).orderedInsert r a := by
  induction l with
  | nil =>
    rw [List.orderedInsert_nil, List.filter_cons_of_pos ha, List.filter_nil, List.orderedInsert_nil]
  | cons b l ih =>
    obtain ⟨hb, hl⟩ := List.pairwise_cons.mp hl
    by_cases hab : r a b
    · -- the element is before all that are kept
      have hall : ∀ c ∈ (b :: l).filter p, r a c := by
        intro c hc
        rcases List.mem_cons.mp (List.mem_of_mem_filter hc) with rfl | hc
        · exact hab
        · exact IsTrans.trans _ _ _ hab (hb c hc)
      rw [List.orderedInsert_cons_of_le r l hab, List.filter_cons_of_pos ha]
      cases hf : (b :: l).filter p with
      | nil => rfl
      | cons c _ => rw [List.orderedInsert_cons_of_le r _ (hall c (hf ▸ List.mem_cons_self))]
    · rw [List.orderedInsert_of_not_le r l hab, List.filter_cons, ih hl, List.filter_cons]
      split
      · rw [List.orderedInsert_of_not_le r _ hab]
      · rfl

/-- Sorting keeps the order of what is selected. -/
theorem filter_insertionSort [Std.Total r] (l : List α) :
    (l.insertionSort r).filter p = (l.filter p).insertionSort r := by
  induction l with
  | nil => rfl
  | cons a l ih =>
    rw [List.insertionSort_cons]
    by_cases ha : p a
    · rw [filter_orderedInsert_of_pos r p ha (List.pairwise_insertionSort r l), ih,
        List.filter_cons_of_pos ha, List.insertionSort_cons]
    · rw [filter_orderedInsert_of_neg r p ha, ih, List.filter_cons_of_neg ha]

end sort

/-! ## The first hit -/

section first

variable {α β τ : Type*} [Preorder τ] {key : α → τ} {f : α → Option β} {l l' : List α}

theorem findSome?_iff (hs : l.Pairwise fun a b => key a < key b) {b : β} :
    l.findSome? f = some b ↔
      ∃ a ∈ l, f a = some b ∧ ∀ a' ∈ l, key a' < key a → f a' = none := by
  rw [List.findSome?_eq_some_iff]
  constructor
  · rintro ⟨l₁, a, l₂, rfl, ha, h⟩
    refine ⟨a, by simp, ha, fun a' ha' hlt => ?_⟩
    rcases List.mem_append.mp ha' with ha' | ha'
    · exact h a' ha'
    · obtain ⟨-, hs, -⟩ := List.pairwise_append.mp hs
      rcases List.mem_cons.mp ha' with rfl | ha'
      · exact absurd hlt (lt_irrefl _)
      · exact absurd hlt ((List.pairwise_cons.mp hs).1 a' ha').not_gt
  · rintro ⟨a, ha, hb, h⟩
    obtain ⟨l₁, l₂, rfl⟩ := List.append_of_mem ha
    refine ⟨l₁, a, l₂, rfl, hb, fun a' ha' => ?_⟩
    obtain ⟨-, -, hlt⟩ := List.pairwise_append.mp hs
    exact h a' (List.mem_append_left _ ha') (hlt a' ha' a List.mem_cons_self)

/-- Two lists in order with the same hits have the same first hit. -/
theorem findSome?_congr (hs : l.Pairwise fun a b => key a < key b)
    (hs' : l'.Pairwise fun a b => key a < key b)
    (h : ∀ a, f a ≠ none → (a ∈ l ↔ a ∈ l')) : l.findSome? f = l'.findSome? f := by
  have step : ∀ l l' : List α, (∀ a, f a ≠ none → (a ∈ l ↔ a ∈ l')) → ∀ b a, a ∈ l →
      f a = some b → (∀ a' ∈ l, key a' < key a → f a' = none) →
        a ∈ l' ∧ ∀ a' ∈ l', key a' < key a → f a' = none := by
    intro l l' h b a ha hb hfirst
    refine ⟨(h a (by rw [hb]; exact Option.some_ne_none b)).mp ha, fun a' ha' hlt => ?_⟩
    by_contra hne
    exact hne (hfirst a' ((h a' hne).mpr ha') hlt)
  refine Option.ext fun b => ?_
  rw [findSome?_iff hs, findSome?_iff hs']
  constructor
  · rintro ⟨a, ha, hb, hfirst⟩
    obtain ⟨ha', hfirst'⟩ := step l l' h b a ha hb hfirst
    exact ⟨a, ha', hb, hfirst'⟩
  · rintro ⟨a, ha, hb, hfirst⟩
    obtain ⟨ha', hfirst'⟩ := step l' l (fun a hne => (h a hne).symm) b a ha hb hfirst
    exact ⟨a, ha', hb, hfirst'⟩

end first

end Sorted
