import Mathlib.Data.List.Basic
import Mathlib.Order.Defs.PartialOrder

/-!
# Probes

A trace of moves and probes in the order of their times, in which the probes of an instant come
before its moves. Only moves change what a probe finds: a probe leaves the state, or it ends the
trace. So it does not matter how often an instant is probed.
-/

namespace Probes

inductive Look (τ β : Type*)
  | probe (t : τ)
  | move (t : τ) (b : β)

section
variable {τ β : Type*} [Preorder τ]

/-- The order of a trace. -/
def Look.Before : Look τ β → Look τ β → Prop
  | .probe t, .probe u => t ≤ u
  | .probe t, .move u _ => t ≤ u
  | .move t _, .probe u => t < u
  | .move t _, .move u _ => t ≤ u

def Look.move? : Look τ β → Option (τ × β)
  | .probe _ => none
  | .move t b => some (t, b)

end

section
variable {τ β : Type*} {l : List (Look τ β)} {t u : τ} {b : β}

theorem mem_moves_iff : (t, b) ∈ l.filterMap Look.move? ↔ Look.move t b ∈ l := by
  rw [List.mem_filterMap]
  constructor
  · rintro ⟨a, ha, hmove⟩
    cases a with
    | probe u => cases hmove
    | move u b =>
      cases hmove
      exact ha
  · exact fun h => ⟨_, h, rfl⟩

theorem move_mem_of_cons (h : Look.move t b ∈ .probe u :: l) : Look.move t b ∈ l := by
  cases h with
  | tail _ h => exact h

theorem probe_mem_of_cons (h : Look.probe u ∈ .move t b :: l) : Look.probe u ∈ l := by
  cases h with
  | tail _ h => exact h

end

/-- What is moved and probed. -/
structure Machine (σ τ β : Type*) where
  probe : τ → σ → σ
  move : τ → β → σ → σ
  Done : σ → Prop
  done_probe : ∀ {s}, Done s → ∀ t, probe t s = s
  done_move : ∀ {s}, Done s → ∀ t b, move t b s = s
  /-- A probe leaves the state or ends the trace, and does the same at any time. -/
  probe_cases : ∀ s, (∀ t, probe t s = s) ∨ ∀ t, Done (probe t s)

variable {σ τ β : Type*} (M : Machine σ τ β) {s : σ}

namespace Machine

def look (s : σ) : Look τ β → σ
  | .probe t => M.probe t s
  | .move t b => M.move t b s

def run (s : σ) (l : List (Look τ β)) : σ := l.foldl M.look s

/-- A probe finds nothing. -/
def Quiet (s : σ) : Prop := ∀ t, M.probe t s = s

variable {M}

theorem run_of_done (h : M.Done s) (l : List (Look τ β)) : M.run s l = s := by
  induction l with
  | nil => rfl
  | cons a l ih =>
    have ha : M.look s a = s := by
      cases a with
      | probe t => exact M.done_probe h t
      | move t b => exact M.done_move h t b
    rw [run, List.foldl_cons, ha]
    exact ih

theorem run_probe (h : M.Quiet s) (t : τ) (l : List (Look τ β)) :
    M.run s (.probe t :: l) = M.run s l :=
  congrArg (l.foldl M.look) (h t)

/-- Where no probe finds anything, only the moves count. -/
theorem run_of_quiet {l : List (Look τ β)} (h : M.Quiet s)
    (hmove : ∀ t b, Look.move t b ∈ l → ∀ s, M.Quiet s → M.Quiet (M.move t b s)) :
    M.run s l = (l.filterMap Look.move?).foldl (fun s b => M.move b.1 b.2 s) s := by
  induction l generalizing s with
  | nil => rfl
  | cons a l ih =>
    have hrest := fun t b (hb : Look.move t b ∈ l) => hmove t b (List.mem_cons_of_mem _ hb)
    cases a with
    | probe t => exact (run_probe h t l).trans (ih h hrest)
    | move t b => exact ih (hmove t b List.mem_cons_self s h) hrest

end Machine

variable [PartialOrder τ] {M} {l l' : List (Look τ β)} {t : τ} {b : β}

/-- The probes of `l` are among those of `l'`, but for those before all moves, if nothing is to be
found. -/
def Machine.Behind (M : Machine σ τ β) (s : σ) (l l' : List (Look τ β)) : Prop :=
  ∀ t, Look.probe t ∈ l → Look.probe t ∈ l' ∨ M.Quiet s ∧ ∀ u b, Look.move u b ∈ l → t ≤ u

/-- Two traces from `s` that differ only in how often an instant is probed. -/
structure Similar (M : Machine σ τ β) (s : σ) (l l' : List (Look τ β)) : Prop where
  sorted : l.Pairwise Look.Before
  sorted' : l'.Pairwise Look.Before
  moves : l.filterMap Look.move? = l'.filterMap Look.move?
  behind : M.Behind s l l'
  behind' : M.Behind s l' l

namespace Similar

theorem symm (h : Similar M s l l') : Similar M s l' l :=
  ⟨h.sorted', h.sorted, h.moves.symm, h.behind', h.behind⟩

theorem mem_iff (h : Similar M s l l') : Look.move t b ∈ l ↔ Look.move t b ∈ l' := by
  rw [← mem_moves_iff, h.moves, mem_moves_iff]

/-- A probe that finds nothing can be left out. -/
theorem strip (h : Similar M s (.probe t :: l) l') (hs : M.Quiet s) : Similar M s l l' := by
  obtain ⟨hfirst, hsorted⟩ := List.pairwise_cons.mp h.sorted
  refine ⟨hsorted, h.sorted', h.moves, fun u hu => ?_, fun u hu => ?_⟩
  · refine (h.behind u (List.mem_cons_of_mem _ hu)).imp_right fun ⟨_, hle⟩ => ⟨hs, fun v b hv => ?_⟩
    exact hle v b (List.mem_cons_of_mem _ hv)
  · refine (h.behind' u hu).elim (fun hmem => ?_) .inr
    cases hmem with
    | tail _ hmem => exact .inl hmem
    | head => exact .inr ⟨hs, fun v b hv => hfirst _ (move_mem_of_cons (h.mem_iff.mpr hv))⟩

theorem behind_move (hl : (.move t b :: l).Pairwise Look.Before)
    (h : M.Behind s (.move t b :: l) (.move t b :: l')) : M.Behind (M.move t b s) l l' := by
  intro u hu
  obtain hmem | ⟨_, hle⟩ := h u (List.mem_cons_of_mem _ hu)
  · exact .inl (probe_mem_of_cons hmem)
  · exact absurd (List.rel_of_pairwise_cons hl hu) (hle t b List.mem_cons_self).not_gt

/-- If the first move is made in both, the rests are similar again. -/
theorem tail (h : Similar M s (.move t b :: l) (.move t b :: l')) : Similar M (M.move t b s) l l' :=
  ⟨h.sorted.of_cons, h.sorted'.of_cons, (List.cons.inj h.moves).2, behind_move h.sorted h.behind,
    behind_move h.sorted' h.behind'⟩

/-- A probe that finds something is the first look of both. -/
theorem first (h : Similar M s (.probe t :: l) l') (hs : ¬ M.Quiet s) :
    ∃ w, l' = .probe t :: w := by
  have hmem : Look.probe t ∈ l' := (h.behind t List.mem_cons_self).resolve_right fun hq => hs hq.1
  have hfirst := (List.pairwise_cons.mp h.sorted).1
  cases l' with
  | nil => cases hmem
  | cons a w =>
    cases a with
    | move u b =>
      have htu : t ≤ u := hfirst _ (move_mem_of_cons (h.mem_iff.mpr List.mem_cons_self))
      have hut : u < t := List.rel_of_pairwise_cons h.sorted' (probe_mem_of_cons hmem)
      exact absurd hut htu.not_gt
    | probe u =>
      refine ⟨w, ?_⟩
      cases hmem with
      | head => rfl
      | tail _ hmem =>
        have hut : u ≤ t := List.rel_of_pairwise_cons h.sorted' hmem
        cases (h.behind' u List.mem_cons_self).resolve_right fun hq => hs hq.1 with
        | head => rfl
        | tail _ hu => rw [le_antisymm hut (hfirst _ hu)]

/-- Similar traces end in the same state. -/
theorem run_eq {l l' : List (Look τ β)} {s : σ} (h : Similar M s l l') :
    M.run s l = M.run s l' := by
  match l, l' with
  | [], [] => rfl
  | [], .move t b :: l' => cases h.moves
  | .move t b :: l, [] => cases h.moves
  | .move t b :: l, .move u c :: l' =>
    obtain ⟨hhead, -⟩ := List.cons.inj h.moves
    cases hhead
    exact h.tail.run_eq
  | .probe t :: l, l' =>
    by_cases hs : M.Quiet s
    · exact (Machine.run_probe hs t l).trans (h.strip hs).run_eq
    · obtain ⟨w, rfl⟩ := h.first hs
      have hdone := (M.probe_cases s).resolve_left hs t
      exact (Machine.run_of_done hdone l).trans (Machine.run_of_done hdone w).symm
  | l, .probe t :: l' =>
    by_cases hs : M.Quiet s
    · exact (h.symm.strip hs).symm.run_eq.trans (Machine.run_probe hs t l').symm
    · obtain ⟨w, rfl⟩ := h.symm.first hs
      have hdone := (M.probe_cases s).resolve_left hs t
      exact (Machine.run_of_done hdone w).trans (Machine.run_of_done hdone l').symm
termination_by l.length + l'.length

end Similar

/-- Traces with the same moves and the same probed instants end in the same state. -/
theorem run_eq_of_probed_iff (hl : l.Pairwise Look.Before) (hl' : l'.Pairwise Look.Before)
    (hmoves : l.filterMap Look.move? = l'.filterMap Look.move?)
    (hprobed : ∀ t, Look.probe t ∈ l ↔ Look.probe t ∈ l') (s : σ) : M.run s l = M.run s l' :=
  Similar.run_eq ⟨hl, hl', hmoves, fun t h => .inl ((hprobed t).mp h),
    fun t h => .inl ((hprobed t).mpr h)⟩

end Probes
