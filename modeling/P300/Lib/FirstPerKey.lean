import Mathlib.Data.List.Nodup
import Mathlib.Data.List.Perm.Basic
import Mathlib.Data.List.Sort
import Mathlib.Order.Defs.LinearOrder
import P300.Lib.Sorted

/-!
# The first of each key

A loop over a list keeps an element if no element before it has its key. What it keeps has one
element of each key, and in an ordered list that is the least one. After sorting by an order that
tells the elements apart, the result does not depend on how the list came.
-/

namespace FirstPerKey

variable {α κ : Type*} [DecidableEq κ] {key : α → κ}

/-- The body of the loop, on the elements kept and the keys seen. -/
def step (key : α → κ) (s : List α × List κ) (a : α) : List α × List κ :=
  if key a ∈ s.2 then s else (s.1 ++ [a], key a :: s.2)

/-- The loop. -/
def firsts (key : α → κ) (l : List α) : List α := (l.foldl (step key) ([], [])).1

/-! ## What the loop keeps -/

/-- What is kept of the rest of the list. -/
def fresh (key : α → κ) (seen : List κ) : List α → List α
  | [] => []
  | a :: l => if key a ∈ seen then fresh key seen l else a :: fresh key (key a :: seen) l

section fresh

variable {l : List α} {seen : List κ} {a b : α}

theorem fresh_cons_of_mem (h : key a ∈ seen) : fresh key seen (a :: l) = fresh key seen l :=
  if_pos h

theorem fresh_cons_of_not_mem (h : key a ∉ seen) :
    fresh key seen (a :: l) = a :: fresh key (key a :: seen) l :=
  if_neg h

theorem foldl_step (l : List α) (s : List α × List κ) :
    (l.foldl (step key) s).1 = s.1 ++ fresh key s.2 l := by
  induction l generalizing s with
  | nil => exact (List.append_nil _).symm
  | cons a l ih =>
    rw [List.foldl_cons, ih, step]
    by_cases h : key a ∈ s.2
    · rw [if_pos h, fresh_cons_of_mem h]
    · rw [if_neg h, fresh_cons_of_not_mem h, List.append_assoc, List.singleton_append]

theorem fresh_sublist (seen : List κ) (l : List α) : (fresh key seen l).Sublist l := by
  induction l generalizing seen with
  | nil => exact .slnil
  | cons a l ih =>
    by_cases h : key a ∈ seen
    · rw [fresh_cons_of_mem h]
      exact (ih seen).cons a
    · rw [fresh_cons_of_not_mem h]
      exact (ih _).cons_cons a

theorem key_not_mem_of_mem_fresh (h : a ∈ fresh key seen l) : key a ∉ seen := by
  induction l generalizing seen with
  | nil => cases h
  | cons b l ih =>
    by_cases hb : key b ∈ seen
    · rw [fresh_cons_of_mem hb] at h
      exact ih h
    · rw [fresh_cons_of_not_mem hb] at h
      rcases List.mem_cons.mp h with rfl | h
      · exact hb
      · exact fun hseen => ih h (List.mem_cons_of_mem _ hseen)

theorem nodup_keys_fresh (seen : List κ) (l : List α) : ((fresh key seen l).map key).Nodup := by
  induction l generalizing seen with
  | nil => exact List.nodup_nil
  | cons a l ih =>
    by_cases h : key a ∈ seen
    · rw [fresh_cons_of_mem h]
      exact ih seen
    · rw [fresh_cons_of_not_mem h, List.map_cons, List.nodup_cons]
      refine ⟨fun hmem => ?_, ih _⟩
      obtain ⟨b, hb, hkey⟩ := List.mem_map.mp hmem
      exact key_not_mem_of_mem_fresh hb (hkey ▸ List.mem_cons_self)

theorem exists_mem_fresh (hb : b ∈ l) (hkey : key b ∉ seen) :
    ∃ a ∈ fresh key seen l, key a = key b := by
  induction l generalizing seen with
  | nil => cases hb
  | cons a l ih =>
    by_cases h : key a ∈ seen
    · rw [fresh_cons_of_mem h]
      rcases List.mem_cons.mp hb with rfl | hb
      · exact absurd h hkey
      · exact ih hb hkey
    · rw [fresh_cons_of_not_mem h]
      by_cases hab : key a = key b
      · exact ⟨a, List.mem_cons_self, hab⟩
      · have hb : b ∈ l := (List.mem_cons.mp hb).resolve_left fun h => hab (h ▸ rfl)
        have hkey' : key b ∉ key a :: seen := by
          rw [List.mem_cons, not_or]
          exact ⟨Ne.symm hab, hkey⟩
        obtain ⟨c, hc, hcb⟩ := ih hb hkey'
        exact ⟨c, List.mem_cons_of_mem a hc, hcb⟩

/-- No element of a kept one's key comes before it. -/
theorem eq_or_rel_of_mem_fresh {r : α → α → Prop} (hl : l.Pairwise r) (ha : a ∈ fresh key seen l)
    (hb : b ∈ l) (hkey : key b = key a) : b = a ∨ r a b := by
  induction l generalizing seen with
  | nil => cases hb
  | cons c l ih =>
    obtain ⟨hc, hl⟩ := List.pairwise_cons.mp hl
    by_cases h : key c ∈ seen
    · rw [fresh_cons_of_mem h] at ha
      rcases List.mem_cons.mp hb with rfl | hb
      · exact absurd (hkey ▸ h) (key_not_mem_of_mem_fresh ha)
      · exact ih hl ha hb
    · rw [fresh_cons_of_not_mem h] at ha
      rcases List.mem_cons.mp ha with rfl | ha
      · exact (List.mem_cons.mp hb).imp_right (hc b)
      · rcases List.mem_cons.mp hb with rfl | hb
        · exact absurd (hkey ▸ List.mem_cons_self) (key_not_mem_of_mem_fresh ha)
        · exact ih hl ha hb

theorem fresh_eq_self (hl : (l.map key).Nodup) (hseen : ∀ a ∈ l, key a ∉ seen) :
    fresh key seen l = l := by
  induction l generalizing seen with
  | nil => rfl
  | cons a l ih =>
    obtain ⟨ha, hl⟩ := List.nodup_cons.mp hl
    obtain ⟨hnew, hseen⟩ := List.forall_mem_cons.mp hseen
    rw [fresh_cons_of_not_mem hnew, ih hl]
    intro b hb hmem
    rcases List.mem_cons.mp hmem with hkey | hmem
    · exact ha (hkey ▸ List.mem_map_of_mem hb)
    · exact hseen b hb hmem

end fresh

/-! ## The result of the loop -/

section firsts

variable {l : List α} {a b : α}

theorem firsts_eq (l : List α) : firsts key l = fresh key [] l := foldl_step l ([], [])

theorem firsts_sublist (key : α → κ) (l : List α) : (firsts key l).Sublist l := by
  rw [firsts_eq]
  exact fresh_sublist [] l

theorem nodup_keys_firsts (key : α → κ) (l : List α) : ((firsts key l).map key).Nodup := by
  rw [firsts_eq]
  exact nodup_keys_fresh [] l

theorem exists_mem_firsts (hb : b ∈ l) : ∃ a ∈ firsts key l, key a = key b := by
  rw [firsts_eq]
  exact exists_mem_fresh hb List.not_mem_nil

theorem firsts_eq_self (hl : (l.map key).Nodup) : firsts key l = l :=
  (firsts_eq l).trans (fresh_eq_self hl fun _ _ => List.not_mem_nil)

/-- The one element of a key that is kept. -/
theorem filter_firsts (ha : a ∈ firsts key l) :
    (firsts key l).filter (fun b => key b = key a) = [a] :=
  Sorted.filter_key_eq_of_nodup (nodup_keys_firsts key l) ha

end firsts

/-! ## The least of each key -/

section least

variable {τ : Type*} [LinearOrder τ] {rank : α → τ} {l l' : List α} {a b : α}

def RankLe (rank : α → τ) (a b : α) : Prop := rank a ≤ rank b

instance : DecidableRel (RankLe rank) := fun a b => inferInstanceAs (Decidable (rank a ≤ rank b))

instance : Std.Total (RankLe rank) := ⟨fun a b => le_total (rank a) (rank b)⟩

instance : IsTrans α (RankLe rank) := ⟨fun _ _ _ => le_trans⟩

/-- The list in the order of the ranks. -/
def sorted (rank : α → τ) (l : List α) : List α := l.insertionSort (RankLe rank)

theorem sorted_perm (rank : α → τ) (l : List α) : (sorted rank l).Perm l :=
  List.perm_insertionSort ..

theorem pairwise_sorted (rank : α → τ) (l : List α) : (sorted rank l).Pairwise (RankLe rank) :=
  List.pairwise_insertionSort ..

/-- Sorting forgets the order if the ranks tell the elements apart. -/
theorem sorted_eq_of_perm (hl : (l.map rank).Nodup) (h : l'.Perm l) :
    sorted rank l' = sorted rank l := by
  have hperm : (sorted rank l').Perm (sorted rank l) :=
    (sorted_perm rank l').trans (h.trans (sorted_perm rank l).symm)
  refine hperm.eq_of_pairwise (fun a b ha hb hab hba => ?_) (pairwise_sorted rank l')
    (pairwise_sorted rank l)
  exact List.inj_on_of_nodup_map hl (h.subset ((sorted_perm rank l').subset ha))
    ((sorted_perm rank l).subset hb) (le_antisymm hab hba)

theorem least_of_mem_firsts (key : α → κ) (rank : α → τ) (ha : a ∈ firsts key (sorted rank l))
    (hb : b ∈ l) (hkey : key b = key a) : rank a ≤ rank b := by
  rw [firsts_eq] at ha
  have hb : b ∈ sorted rank l := (sorted_perm rank l).symm.subset hb
  rcases eq_or_rel_of_mem_fresh (pairwise_sorted rank l) ha hb hkey with rfl | h
  · exact le_rfl
  · exact h

/-- The result of the loop is its own result. -/
theorem firsts_sorted_firsts (key : α → κ) (rank : α → τ) (l : List α) :
    firsts key (sorted rank (firsts key (sorted rank l))) = firsts key (sorted rank l) := by
  have hpairwise := (pairwise_sorted rank l).sublist (firsts_sublist key (sorted rank l))
  rw [sorted, hpairwise.insertionSort_eq, firsts_eq_self (nodup_keys_firsts key _)]

end least

end FirstPerKey
