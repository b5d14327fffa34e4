import Mathlib.Algebra.BigOperators.Group.List.Basic
import Mathlib.Order.Lattice

/-!
# Values that change at instants

A value is set at the instants of a list, in order. The segment of a change is open at the change
and closed at the next one: what happens at the instant of a change still meets the old value. The
segments cover every point after the first change once, so a charge made segment by segment is the
charge of each point at the value in force just before it.
-/

namespace Segments

variable {τ ν π M : Type*} [LinearOrder τ]

/-- The segment from a change to the next one, if there is one. -/
structure Segment (τ ν : Type*) where
  start : τ
  next : Option τ
  value : ν

/-- The point lies after the start and not after the next change. -/
def Segment.Has (s : Segment τ ν) (x : τ) : Prop := s.start < x ∧ ∀ t ∈ s.next, x ≤ t

instance (s : Segment τ ν) (x : τ) : Decidable (s.Has x) := inferInstanceAs (Decidable (_ ∧ _))

def segments : List (τ × ν) → List (Segment τ ν)
  | [] => []
  | c :: rest => ⟨c.1, rest.head?.map Prod.fst, c.2⟩ :: segments rest

/-- The value just before `x`. -/
def inForce (changes : List (τ × ν)) (x : τ) : Option ν :=
  ((changes.filter fun c => c.1 < x).getLast?).map Prod.snd

/-- The changes come in order. -/
abbrev Ordered (changes : List (τ × ν)) : Prop := changes.Pairwise fun c c' => c.1 ≤ c'.1

variable {changes rest : List (τ × ν)} {c : τ × ν} {s : Segment τ ν} {x : τ}

omit [LinearOrder τ] in
theorem mem_segments (h : s ∈ segments changes) :
    s.start ∈ changes.map Prod.fst ∧ ∀ t ∈ s.next, t ∈ changes.map Prod.fst := by
  induction changes with
  | nil => cases h
  | cons c rest ih =>
    rw [List.map_cons]
    rcases List.mem_cons.mp h with rfl | h
    · refine ⟨List.mem_cons_self, fun t ht => List.mem_cons_of_mem _ ?_⟩
      obtain ⟨c', hc', rfl⟩ := Option.map_eq_some_iff.mp ht
      exact List.mem_map_of_mem (List.mem_of_mem_head? hc')
    · obtain ⟨hstart, hnext⟩ := ih h
      exact ⟨List.mem_cons_of_mem _ hstart, fun t ht => List.mem_cons_of_mem _ (hnext t ht)⟩

/-- Before the first change no segment has a point. -/
theorem not_has_of_le (hle : ∀ c ∈ changes, x ≤ c.1) (h : s ∈ segments changes) : ¬ s.Has x := by
  intro hx
  obtain ⟨c, hc, hstart⟩ := List.mem_map.mp (mem_segments h).1
  exact absurd hx.1 (not_lt.mpr (hstart ▸ hle c hc))

theorem inForce_cons_of_le (hc : c.1 < x) (hle : ∀ c ∈ rest, x ≤ c.1) :
    inForce (c :: rest) x = some c.2 := by
  have hnone : rest.filter (fun c => c.1 < x) = [] :=
    List.filter_eq_nil_iff.mpr fun c hc => by simpa using hle c hc
  rw [inForce, List.filter_cons_of_pos (by simpa using hc), hnone]
  rfl

theorem inForce_cons_of_lt {c' : τ × ν} (hc' : c' ∈ rest) (hlt : c'.1 < x) :
    inForce (c :: rest) x = inForce rest x := by
  have hne : rest.filter (fun c => c.1 < x) ≠ [] :=
    List.ne_nil_of_mem (List.mem_filter.mpr ⟨hc', by simpa using hlt⟩)
  rw [inForce, inForce, List.filter_cons]
  split
  · rw [List.getLast?_cons_of_ne_nil hne]
  · rfl

/-- A point after the first change is in one segment, whose value is the one in force before it. -/
theorem has_once (hordered : Ordered changes) (hne : changes ≠ [])
    (hfirst : ∀ c ∈ changes.head?, c.1 < x) :
    ∃ pre s post, segments changes = pre ++ s :: post ∧ s.Has x ∧
      inForce changes x = some s.value ∧ ∀ s' ∈ pre ++ post, ¬ s'.Has x := by
  induction changes with
  | nil => exact absurd rfl hne
  | cons c rest ih =>
    obtain ⟨hc, hordered⟩ := List.pairwise_cons.mp hordered
    have hlt : c.1 < x := hfirst c rfl
    by_cases hnext : ∃ c' ∈ rest.head?, c'.1 < x
    · -- the next change comes before the point
      obtain ⟨c', hc', hlt'⟩ := hnext
      have hmem : c' ∈ rest := List.mem_of_mem_head? hc'
      obtain ⟨pre, s, post, heq, hs, hforce, hothers⟩ := ih hordered (List.ne_nil_of_mem hmem)
        fun c'' hc'' => by
          cases hc'.symm.trans hc''
          exact hlt'
      refine ⟨⟨c.1, rest.head?.map Prod.fst, c.2⟩ :: pre, s, post, by rw [segments, heq]; rfl, hs,
        (inForce_cons_of_lt hmem hlt').trans hforce, fun s' hs' => ?_⟩
      rw [List.cons_append] at hs'
      rcases List.mem_cons.mp hs' with rfl | hs'
      · exact fun hx => absurd (hx.2 _ (Option.mem_map_of_mem _ hc')) (not_le.mpr hlt')
      · exact hothers s' hs'
    · have hlater : ∀ c' ∈ rest, x ≤ c'.1 := by
        intro c' hc'
        obtain ⟨c₁, rest', rfl⟩ := List.exists_cons_of_ne_nil (List.ne_nil_of_mem hc')
        have hle : x ≤ c₁.1 := not_lt.mp fun h => hnext ⟨c₁, rfl, h⟩
        rcases List.mem_cons.mp hc' with rfl | hc'
        · exact hle
        · exact hle.trans ((List.pairwise_cons.mp hordered).1 c' hc')
      refine ⟨[], ⟨c.1, rest.head?.map Prod.fst, c.2⟩, segments rest, rfl, ⟨hlt, fun t ht => ?_⟩,
        inForce_cons_of_le hlt hlater, fun s' hs' => not_has_of_le hlater hs'⟩
      obtain ⟨c', hc', rfl⟩ := Option.map_eq_some_iff.mp ht
      exact hlater c' (List.mem_of_mem_head? hc')

section charge

variable [AddCommMonoid M]

theorem sum_filter_has (s : Segment τ ν) (at_ : π → τ) (f : π → M) (ps : List π) :
    ((ps.filter fun p => s.Has (at_ p)).map f).sum =
      (ps.map fun p => if s.Has (at_ p) then f p else 0).sum := by
  induction ps with
  | nil => rfl
  | cons p ps ih =>
    rw [List.map_cons, List.sum_cons, List.filter_cons]
    by_cases hp : s.Has (at_ p)
    · rw [if_pos (decide_eq_true hp), if_pos hp, List.map_cons, List.sum_cons, ih]
    · rw [if_neg (by simpa using hp), if_neg hp, zero_add, ih]

/-- Charged segment by segment, every point is charged at the value in force before it. -/
theorem sum_segments (hordered : Ordered changes) (hne : changes ≠ []) (at_ : π → τ) (f : ν → π → M)
    (ps : List π) (hps : ∀ p ∈ ps, ∀ c ∈ changes.head?, c.1 < at_ p) :
    ((segments changes).map fun s => ((ps.filter fun p => s.Has (at_ p)).map (f s.value)).sum).sum =
      (ps.map fun p => (inForce changes (at_ p)).elim 0 fun v => f v p).sum := by
  simp only [sum_filter_has]
  induction ps with
  | nil => simp
  | cons p ps ih =>
    simp only [List.map_cons, List.sum_cons, List.sum_map_add]
    rw [ih fun p' hp' => hps p' (List.mem_cons_of_mem p hp')]
    congr 1
    obtain ⟨pre, s, post, heq, hs, hforce, hothers⟩ :=
      has_once hordered hne (hps p List.mem_cons_self)
    have hzero : ∀ l : List (Segment τ ν), (∀ s' ∈ l, ¬ s'.Has (at_ p)) →
        (l.map fun s' => if s'.Has (at_ p) then f s'.value p else 0).sum = 0 := fun l hl => by
      refine List.sum_eq_zero fun y hy => ?_
      obtain ⟨s', hs', rfl⟩ := List.mem_map.mp hy
      exact if_neg (hl s' hs')
    rw [heq, List.map_append, List.map_cons, List.sum_append, List.sum_cons, hforce, if_pos hs,
      hzero pre fun s' hs' => hothers s' (List.mem_append_left _ hs'),
      hzero post fun s' hs' => hothers s' (List.mem_append_right _ hs'), zero_add, add_zero]
    rfl

end charge

end Segments
