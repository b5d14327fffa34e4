import Mathlib.Algebra.Order.Group.Defs
import Mathlib.Data.List.Sort
import Mathlib.Data.Prod.Lex

/-!
# Merging closed intervals

A list of closed intervals is sorted, and intervals that overlap or whose gap is at most `g` become
one; intervals with no points are left out. The result covers every point that was covered, its
intervals are in order and more than `g` apart, and their ends are ends of the given ones.
-/

namespace Intervals

variable {α : Type*} [LinearOrder α]

/-- Some interval contains `x`. -/
def Covers (rs : List (α × α)) (x : α) : Prop := ∃ r ∈ rs, r.1 ≤ x ∧ x ≤ r.2

instance (rs : List (α × α)) (x : α) : Decidable (Covers rs x) :=
  inferInstanceAs (Decidable (∃ r ∈ rs, r.1 ≤ x ∧ x ≤ r.2))

def sorted (rs : List (α × α)) : List (α × α) := rs.insertionSort fun a b => toLex a ≤ toLex b

section sorted

variable {rs rs' : List (α × α)} {r : α × α} {x : α}

theorem Covers.mono (h : Covers rs x) (hsub : rs ⊆ rs') : Covers rs' x := by
  obtain ⟨r, hr, hx⟩ := h
  exact ⟨r, hsub hr, hx⟩

theorem mem_sorted : r ∈ sorted rs ↔ r ∈ rs := (List.perm_insertionSort _ rs).mem_iff

theorem sorted_pairwise (rs : List (α × α)) : (sorted rs).Pairwise fun a b => a.1 ≤ b.1 := by
  have h : (sorted rs).Pairwise fun a b => toLex a ≤ toLex b := List.pairwise_insertionSort _ rs
  exact h.imp fun hab => (Prod.Lex.le_iff.mp hab).elim le_of_lt fun h => h.1.le

/-- Intervals that begin one after the other are sorted already. -/
theorem sorted_eq (hs : rs.Pairwise fun a b => a.1 < b.1) (hperm : rs.Perm rs') :
    sorted rs' = rs := by
  have hs : rs.Pairwise fun a b => toLex a ≤ toLex b := hs.imp fun h => Prod.Lex.le_iff.mpr (.inl h)
  have hs' : (sorted rs').Pairwise fun a b => toLex a ≤ toLex b := List.pairwise_insertionSort _ rs'
  exact ((List.perm_insertionSort _ rs').trans hperm.symm).eq_of_pairwise
    (fun _ _ _ _ hab hba => toLex.injective (le_antisymm hab hba)) hs' hs

end sorted

/-- One interval more, the last one first. -/
def push [Add α] (g : α) (out : List (α × α)) (r : α × α) : List (α × α) :=
  if r.1 > r.2 then out
  else match out with
    | [] => [r]
    | last :: rest =>
      if r.1 ≤ last.2 + g then (last.1, max r.2 last.2) :: rest else r :: last :: rest

def merge [Add α] (g : α) (rs : List (α × α)) : List (α × α) :=
  ((sorted rs).foldl (push g) []).reverse

section covers

variable [Add α] {g : α} {out rs : List (α × α)} {r : α × α} {x : α}

/-- Nothing that was covered is lost, if the new interval does not begin before the last one. -/
theorem covers_push (h : ∀ last ∈ out.head?, last.1 ≤ r.1)
    (hx : Covers out x ∨ r.1 ≤ x ∧ x ≤ r.2) : Covers (push g out r) x := by
  unfold push
  split
  · next he => exact hx.elim id fun hr => absurd (hr.1.trans hr.2) (not_le.mpr he)
  · split
    · exact ⟨r, List.mem_singleton_self r, hx.resolve_left fun ⟨_, hm, _⟩ => nomatch hm⟩
    · next last rest =>
      have hlast := h last rfl
      split
      · rcases hx with ⟨r', hm, hx⟩ | hx
        · rcases List.mem_cons.mp hm with rfl | hm
          · exact ⟨_, List.mem_cons_self, hx.1, hx.2.trans (le_max_right ..)⟩
          · exact ⟨r', List.mem_cons_of_mem _ hm, hx⟩
        · exact ⟨_, List.mem_cons_self, hlast.trans hx.1, hx.2.trans (le_max_left ..)⟩
      · rcases hx with ⟨r', hm, hx⟩ | hx
        · exact ⟨r', List.mem_cons_of_mem _ hm, hx⟩
        · exact ⟨r, List.mem_cons_self, hx⟩

theorem head?_push (h : ∀ last ∈ out.head?, last.1 ≤ r.1) :
    ∀ last ∈ (push g out r).head?, last.1 ≤ r.1 := by
  unfold push
  split
  · exact h
  · split
    · rintro _ ⟨⟩
      exact le_rfl
    · next last rest =>
      split
      · rintro _ ⟨⟩
        exact h last rfl
      · rintro _ ⟨⟩
        exact le_rfl

theorem covers_foldl_push (hs : rs.Pairwise fun a b => a.1 ≤ b.1)
    (h : ∀ last ∈ out.head?, ∀ r ∈ rs, last.1 ≤ r.1) (hx : Covers out x ∨ Covers rs x) :
    Covers (rs.foldl (push g) out) x := by
  induction rs generalizing out with
  | nil => exact hx.resolve_right fun ⟨_, hm, _⟩ => nomatch hm
  | cons r rs ih =>
    obtain ⟨hr, hs⟩ := List.pairwise_cons.mp hs
    have hhead : ∀ last ∈ out.head?, last.1 ≤ r.1 := fun last hl => h last hl r List.mem_cons_self
    refine ih hs (fun last hl r' hr' => (head?_push hhead last hl).trans (hr r' hr')) ?_
    rcases hx with hx | ⟨r', hm, hx⟩
    · exact .inl (covers_push hhead (.inl hx))
    · rcases List.mem_cons.mp hm with rfl | hm
      · exact .inl (covers_push hhead (.inr hx))
      · exact .inr ⟨r', hm, hx⟩

/-- Every point that was covered still is. -/
theorem covers_merge (h : Covers rs x) : Covers (merge g rs) x := by
  have hc : Covers ((sorted rs).foldl (push g) []) x :=
    covers_foldl_push (sorted_pairwise rs) (fun _ hl => nomatch hl)
      (.inr (h.mono fun _ hr => mem_sorted.mpr hr))
  exact hc.mono fun _ hr => List.mem_reverse.mpr hr

/-- The ends of the result are ends of the given intervals, and no interval is empty. -/
theorem ends_foldl_push {P Q : α → Prop} (ho : ∀ r ∈ out, P r.1 ∧ Q r.2 ∧ r.1 ≤ r.2)
    (hr : ∀ r ∈ rs, P r.1 ∧ Q r.2) :
    ∀ r ∈ rs.foldl (push g) out, P r.1 ∧ Q r.2 ∧ r.1 ≤ r.2 := by
  induction rs generalizing out with
  | nil => exact ho
  | cons r rs ih =>
    obtain ⟨hrP, hrQ⟩ := hr r List.mem_cons_self
    refine ih ?_ fun r' hr' => hr r' (List.mem_cons_of_mem _ hr')
    unfold push
    split
    · exact ho
    · next hne =>
      have hle : r.1 ≤ r.2 := not_lt.mp hne
      split
      · intro r' hr'
        rw [List.mem_singleton.mp hr']
        exact ⟨hrP, hrQ, hle⟩
      · next last rest =>
        obtain ⟨hP, hQ, hl⟩ := ho last List.mem_cons_self
        split
        · intro r' hr'
          rcases List.mem_cons.mp hr' with rfl | hr'
          · exact ⟨hP, max_rec' Q hrQ hQ, hl.trans (le_max_right ..)⟩
          · exact ho r' (List.mem_cons_of_mem _ hr')
        · intro r' hr'
          rcases List.mem_cons.mp hr' with rfl | hr'
          · exact ⟨hrP, hrQ, hle⟩
          · exact ho r' hr'

theorem ends_merge {P Q : α → Prop} (hr : ∀ r ∈ rs, P r.1 ∧ Q r.2) :
    ∀ r ∈ merge g rs, P r.1 ∧ Q r.2 ∧ r.1 ≤ r.2 := by
  intro r hm
  have ho : ∀ r ∈ ([] : List (α × α)), P r.1 ∧ Q r.2 ∧ r.1 ≤ r.2 := fun _ h => nomatch h
  exact ends_foldl_push ho (fun r' hr' => hr r' (mem_sorted.mp hr')) r (List.mem_reverse.mp hm)

end covers

section separated

variable [AddZeroClass α] [AddLeftMono α] {g : α} {out rs : List (α × α)}

theorem separated_foldl_push (hg : 0 ≤ g) (ho : out.Pairwise fun b a => a.2 + g < b.1)
    (hle : ∀ r ∈ out, r.1 ≤ r.2) :
    (rs.foldl (push g) out).Pairwise fun b a => a.2 + g < b.1 := by
  induction rs generalizing out with
  | nil => exact ho
  | cons r rs ih =>
    rw [List.foldl_cons]
    unfold push
    split
    · exact ih ho hle
    · next hne =>
      have hr : r.1 ≤ r.2 := not_lt.mp hne
      split
      · exact ih (List.pairwise_singleton ..) fun r' hr' => (List.mem_singleton.mp hr') ▸ hr
      · next last rest =>
        obtain ⟨hlast, hrest⟩ := List.pairwise_cons.mp ho
        have hl : last.1 ≤ last.2 := hle last List.mem_cons_self
        split
        · refine ih (List.pairwise_cons.mpr ⟨hlast, hrest⟩) fun r' hr' => ?_
          rcases List.mem_cons.mp hr' with rfl | hr'
          · exact hl.trans (le_max_right ..)
          · exact hle r' (List.mem_cons_of_mem _ hr')
        · next hgap =>
          have hgap : last.2 + g < r.1 := not_le.mp hgap
          refine ih (List.pairwise_cons.mpr ⟨fun a ha => ?_, ho⟩) fun r' hr' => ?_
          · rcases List.mem_cons.mp ha with rfl | ha
            · exact hgap
            · exact (hlast a ha).trans_le (hl.trans ((le_add_of_nonneg_right hg).trans hgap.le))
          · rcases List.mem_cons.mp hr' with rfl | hr'
            · exact hr
            · exact hle r' hr'

/-- The intervals of the result are in order and more than `g` apart. -/
theorem merge_separated (hg : 0 ≤ g) (rs : List (α × α)) :
    (merge g rs).Pairwise fun a b => a.2 + g < b.1 :=
  List.pairwise_reverse.mpr (separated_foldl_push hg .nil fun _ h => nomatch h)

/-- Between two covered points that are at most `g` apart, all points are covered. -/
theorem covers_merge_between [AddRightMono α] {a b x : α} (hg : 0 ≤ g) (ha : Covers rs a)
    (hb : Covers rs b) (hclose : b ≤ a + g) (hax : a ≤ x) (hxb : x ≤ b) :
    Covers (merge g rs) x := by
  obtain ⟨r, hr, hr1, hr2⟩ := covers_merge (g := g) ha
  obtain ⟨r', hr', hr1', hr2'⟩ := covers_merge (g := g) hb
  have hsep : ∀ r ∈ merge g rs, ∀ r' ∈ merge g rs, r = r' ∨ r.2 + g < r'.1 ∨ r'.2 + g < r.1 := by
    intro r hr r' hr'
    have hpair := merge_separated hg rs
    refine List.Pairwise.forall_of_forall_of_flip
      (R := fun r r' => r = r' ∨ r.2 + g < r'.1 ∨ r'.2 + g < r.1) (fun _ _ => .inl rfl)
      (hpair.imp fun h => .inr (.inl h)) (hpair.imp fun h => .inr (.inr h)) hr hr'
  rcases hsep r hr r' hr' with rfl | hlt | hlt
  · exact ⟨r, hr, hr1.trans hax, hxb.trans hr2'⟩
  · exact absurd (hr1'.trans (hclose.trans (add_le_add_left hr2 g))) hlt.not_ge
  · have hle : r'.2 ≤ r'.2 + g := le_add_of_nonneg_right hg
    exact absurd (hr1.trans ((hax.trans hxb).trans (hr2'.trans hle))) hlt.not_ge

end separated

end Intervals
