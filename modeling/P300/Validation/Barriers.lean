import Mathlib.Algebra.BigOperators.Group.List.Basic
import Mathlib.Algebra.Order.Ring.Rat
import Mathlib.Order.Bounds.Basic
import Mathlib.Tactic.Ring

/-!
# Triple-barrier labels

`triple_barrier_labels` of `studies/lib/validation/triple_barrier.py`: each day gets the first
barrier that the cumulative return of the days after it reaches within the horizon, and the extremes
of these returns. The loop stops at the barrier, and the extremes with it.

The numbers are any linear order with operations of its own, of which nothing is asked. A double
that is not a NaN is such a number, both zeros being one, so that the results hold whatever the
rounding of a sum or a product does at a barrier, as long as none of them is a NaN.
-/

namespace P300

structure Barriers (α : Type) where
  upperPct : α
  lowerPct : α
  horizonDays : ℕ

inductive TouchSide
  | upper
  | lower
  | timeout
  deriving DecidableEq

/-- The entries of the returned arrays for a day. -/
structure DayLabel (α : Type) where
  label : Int
  touchDay : ℕ
  touchSide : TouchSide
  pathMin : α
  pathMax : α
  deriving DecidableEq

/-- The cumulative return with one more day. -/
def accumulate {α : Type} [One α] [Add α] [Sub α] [Mul α] (useLog : Bool) (cum rk : α) : α :=
  if useLog then cum + rk else (1 + cum) * (1 + rk) - 1

section

variable {α : Type} [LinearOrder α] [Neg α]

/-- `-abs(barriers.lower_pct)` -/
def Barriers.lower (b : Barriers α) : α := -max b.lowerPct (-b.lowerPct)

/-- The loop over the offsets of a day, from offset `k` on. -/
def walkBarriers [One α] [Add α] [Sub α] [Mul α] (b : Barriers α) (useLog : Bool) :
    List α → ℕ → α → α → α → DayLabel α
  | [], _, _, pmin, pmax => ⟨0, b.horizonDays, .timeout, pmin, pmax⟩
  | rk :: rs, k, cum, pmin, pmax =>
    let cum := accumulate useLog cum rk
    let pmin := if cum < pmin then cum else pmin
    let pmax := if cum > pmax then cum else pmax
    if cum ≥ b.upperPct then ⟨1, k, .upper, pmin, pmax⟩
    else if cum ≤ b.lower then ⟨-1, k, .lower, pmin, pmax⟩
    else walkBarriers b useLog rs (k + 1) cum pmin pmax

/-- The returns of the days after a day, up to the horizon. -/
def horizonReturns {α : Type} (r : List α) (b : Barriers α) (t : ℕ) : List α :=
  (r.drop (t + 1)).take b.horizonDays

/-- `triple_barrier_labels` -/
def tripleBarrierLabels [Zero α] [One α] [Add α] [Sub α] [Mul α] (r : List α) (b : Barriers α)
    (useLog : Bool) :
    Except String (List (DayLabel α)) :=
  let T := r.length
  let H := b.horizonDays
  if T ≤ H then .error s!"need T > horizon_days (got T={T}, H={H})"
  else .ok ((List.range (T - H)).map fun t => walkBarriers b useLog (horizonReturns r b t) 1 0 0 0)

end

/-! ## Cumulative returns -/

section cumulative

variable {α : Type} {useLog : Bool} {rs : List α}

/-- The cumulative returns at the offsets from 1 on. -/
def cumulativePath [Zero α] [One α] [Add α] [Sub α] [Mul α] (useLog : Bool) (rs : List α) :
    List α :=
  (List.range rs.length).map fun k => (rs.take (k + 1)).foldl (accumulate useLog) 0

/-- The values of `cum` in the loop, if it is not left. -/
def cums [One α] [Add α] [Sub α] [Mul α] (useLog : Bool) : α → List α → List α
  | _, [] => []
  | cum, rk :: rs => accumulate useLog cum rk :: cums useLog (accumulate useLog cum rk) rs

theorem cums_eq [One α] [Add α] [Sub α] [Mul α] (cum : α) : cums useLog cum rs =
    (List.range rs.length).map fun k => (rs.take (k + 1)).foldl (accumulate useLog) cum := by
  induction rs generalizing cum with
  | nil => rfl
  | cons rk rs ih =>
    rw [cums, ih, List.length_cons, List.range_succ_eq_map, List.map_cons, List.map_map]
    rfl

theorem foldl_accumulate [CommRing α] (cum : α) : rs.foldl (accumulate useLog) cum =
    if useLog then cum + rs.sum else (1 + cum) * (rs.map (1 + ·)).prod - 1 := by
  induction rs generalizing cum with
  | nil => cases useLog <;> simp
  | cons rk rs ih =>
    rw [List.foldl_cons, ih, List.sum_cons, List.map_cons, List.prod_cons, accumulate]
    cases useLog
    · simp only [Bool.false_eq_true, if_false]
      ring
    · simp only [if_true]
      ring

/-- In exact arithmetic the cumulative returns are sums, or compounded. -/
theorem cumulativePath_eq [CommRing α] : cumulativePath useLog rs =
    (List.range rs.length).map fun k =>
      if useLog then (rs.take (k + 1)).sum else ((rs.take (k + 1)).map (1 + ·)).prod - 1 := by
  refine List.map_congr_left fun k _ => ?_
  rw [foldl_accumulate, zero_add, add_zero, one_mul]

end cumulative

section path

variable {α : Type} [LinearOrder α] [Neg α] {b : Barriers α} {useLog : Bool} {k : ℕ}

/-! ## The first touch -/

/-- The cumulative return is at a barrier or beyond it. -/
def Reaches (b : Barriers α) (c : α) : Prop := b.upperPct ≤ c ∨ c ≤ b.lower

instance (c : α) : Decidable (Reaches b c) := inferInstanceAs (Decidable (_ ∨ _))

/-- A label is that of the first return of a path that reaches a barrier; the path begins at offset
`k`. -/
inductive FirstTouch (b : Barriers α) (k : ℕ) (path : List α) (d : DayLabel α) : Prop
  | upper (j : ℕ) (c : α) (hc : path[j]? = some c) (hreach : b.upperPct ≤ c)
      (hfirst : ∀ c ∈ path.take j, ¬ Reaches b c) (hd : d.label = 1 ∧ d.touchSide = .upper ∧
        d.touchDay = k + j)
  | lower (j : ℕ) (c : α) (hc : path[j]? = some c) (hreach : c < b.upperPct ∧ c ≤ b.lower)
      (hfirst : ∀ c ∈ path.take j, ¬ Reaches b c) (hd : d.label = -1 ∧ d.touchSide = .lower ∧
        d.touchDay = k + j)
  | timeout (hnone : ∀ c ∈ path, ¬ Reaches b c)
      (hd : d.label = 0 ∧ d.touchSide = .timeout ∧ d.touchDay = b.horizonDays)

theorem FirstTouch.cons {c : α} {path : List α} {d : DayLabel α} (h : FirstTouch b (k + 1) path d)
    (hc : ¬ Reaches b c) : FirstTouch b k (c :: path) d := by
  have htake : ∀ {j}, (∀ c' ∈ path.take j, ¬ Reaches b c') →
      ∀ c' ∈ (c :: path).take (j + 1), ¬ Reaches b c' :=
    fun hfirst => List.forall_mem_cons.mpr ⟨hc, hfirst⟩
  have hday : ∀ j, k + 1 + j = k + (j + 1) := fun j => by omega
  cases h with
  | upper j c' hj hreach hfirst hd => exact .upper (j + 1) c' hj hreach (htake hfirst) (hday j ▸ hd)
  | lower j c' hj hreach hfirst hd => exact .lower (j + 1) c' hj hreach (htake hfirst) (hday j ▸ hd)
  | timeout hnone hd => exact .timeout (List.forall_mem_cons.mpr ⟨hc, hnone⟩) hd

theorem walkBarriers_firstTouch [One α] [Add α] [Sub α] [Mul α] (rs : List α) (k : ℕ)
    (cum pmin pmax : α) :
    FirstTouch b k (cums useLog cum rs) (walkBarriers b useLog rs k cum pmin pmax) := by
  induction rs generalizing k cum pmin pmax with
  | nil => exact .timeout (fun c hc => (List.not_mem_nil hc).elim) ⟨rfl, rfl, rfl⟩
  | cons rk rs ih =>
    rw [walkBarriers, cums]
    split
    · next hupper =>
      exact .upper 0 _ rfl hupper (fun c hc => (List.not_mem_nil hc).elim) ⟨rfl, rfl, rfl⟩
    · next hupper =>
      split
      · next hlower =>
        exact .lower 0 _ rfl ⟨not_le.mp hupper, hlower⟩ (fun c hc => (List.not_mem_nil hc).elim)
          ⟨rfl, rfl, rfl⟩
      · next hlower => exact (ih ..).cons (not_or.mpr ⟨hupper, hlower⟩)

/-! ## The extremes -/

/-- The path up to its first touch. -/
def upToTouch (b : Barriers α) : List α → List α
  | [] => []
  | c :: path => if Reaches b c then [c] else c :: upToTouch b path

/-- The path after its first touch. -/
def afterTouch (b : Barriers α) : List α → List α
  | [] => []
  | c :: path => if Reaches b c then path else afterTouch b path

theorem upToTouch_append_afterTouch (path : List α) :
    upToTouch b path ++ afterTouch b path = path := by
  induction path with
  | nil => rfl
  | cons c path ih =>
    rw [upToTouch, afterTouch]
    split
    · rfl
    · exact congrArg (c :: ·) ih

theorem walkBarriers_extremes [One α] [Add α] [Sub α] [Mul α] (rs : List α) (k : ℕ)
    (cum pmin pmax : α) :
    (walkBarriers b useLog rs k cum pmin pmax).pathMin =
      (upToTouch b (cums useLog cum rs)).foldl min pmin ∧
    (walkBarriers b useLog rs k cum pmin pmax).pathMax =
      (upToTouch b (cums useLog cum rs)).foldl max pmax := by
  induction rs generalizing k cum pmin pmax with
  | nil => exact ⟨rfl, rfl⟩
  | cons rk rs ih =>
    rw [walkBarriers, cums, upToTouch]
    generalize accumulate useLog cum rk = c
    rw [← min_def_lt, min_comm, ← max_def_lt]
    by_cases hupper : c ≥ b.upperPct
    · rw [if_pos hupper, if_pos (.inl hupper)]
      exact ⟨rfl, rfl⟩
    · rw [if_neg hupper]
      by_cases hlower : c ≤ b.lower
      · rw [if_pos hlower, if_pos (.inr hlower)]
        exact ⟨rfl, rfl⟩
      · have hnot : ¬ Reaches b c := not_or.mpr ⟨hupper, hlower⟩
        rw [if_neg hlower, if_neg hnot]
        exact ih ..

theorem isLeast_foldl_min {α : Type} [LinearOrder α] (l : List α) (a : α) :
    IsLeast (insert a {c | c ∈ l}) (l.foldl min a) := by
  induction l generalizing a with
  | nil => exact ⟨.inl rfl, fun c hc => (hc.resolve_right List.not_mem_nil).ge⟩
  | cons c l ih =>
    obtain ⟨hmem, hle⟩ := ih (min a c)
    have hmin : l.foldl min (min a c) ≤ min a c := hle (.inl rfl)
    constructor
    · rcases hmem with h | h
      · rw [List.foldl_cons, h]
        rcases min_choice a c with h | h <;> rw [h]
        · exact .inl rfl
        · exact .inr List.mem_cons_self
      · exact .inr (List.mem_cons_of_mem c h)
    · rintro c' (rfl | hc')
      · exact hmin.trans (min_le_left ..)
      · rcases List.mem_cons.mp hc' with rfl | hc'
        · exact hmin.trans (min_le_right ..)
        · exact hle (.inr hc')

theorem isGreatest_foldl_max {α : Type} [LinearOrder α] (l : List α) (a : α) :
    IsGreatest (insert a {c | c ∈ l}) (l.foldl max a) :=
  @isLeast_foldl_min αᵒᵈ _ l a

/-- The extremes of a day are those of 0 and the cumulative returns of its path. -/
structure Extremes [Zero α] (path : List α) (d : DayLabel α) : Prop where
  pathMin : IsLeast (insert 0 {c | c ∈ path}) d.pathMin
  pathMax : IsGreatest (insert 0 {c | c ∈ path}) d.pathMax

/-- After the first touch, the path stays between 0 and the returns up to the touch. -/
def Quiet [Zero α] (b : Barriers α) (path : List α) : Prop :=
  ∀ c ∈ afterTouch b path, (∃ c' ∈ 0 :: upToTouch b path, c' ≤ c) ∧
    ∃ c' ∈ 0 :: upToTouch b path, c ≤ c'

theorem extremes_iff_quiet [Zero α] {path : List α} {d : DayLabel α}
    (hmin : d.pathMin = (upToTouch b path).foldl min 0)
    (hmax : d.pathMax = (upToTouch b path).foldl max 0) :
    Extremes path d ↔ Quiet b path := by
  obtain ⟨hleastMem, hleast⟩ := isLeast_foldl_min (upToTouch b path) 0
  obtain ⟨hgreatestMem, hgreatest⟩ := isGreatest_foldl_max (upToTouch b path) 0
  rw [← hmin] at hleastMem hleast
  rw [← hmax] at hgreatestMem hgreatest
  have hsplit : ∀ c, c ∈ path ↔ c ∈ upToTouch b path ∨ c ∈ afterTouch b path := fun c => by
    rw [← List.mem_append, upToTouch_append_afterTouch]
  have hseen : ∀ {c}, c ∈ insert 0 {c | c ∈ upToTouch b path} ↔ c ∈ 0 :: upToTouch b path :=
    fun {c} => List.mem_cons.symm
  constructor
  · intro H c hc
    have hmem : c ∈ insert 0 {c | c ∈ path} := .inr ((hsplit c).mpr (.inr hc))
    exact ⟨⟨_, hseen.mp hleastMem, H.pathMin.2 hmem⟩, _, hseen.mp hgreatestMem, H.pathMax.2 hmem⟩
  · intro hquiet
    have hsub : insert 0 {c | c ∈ upToTouch b path} ⊆ insert 0 {c | c ∈ path} :=
      Set.insert_subset_insert fun c hc => (hsplit c).mpr (.inl hc)
    refine ⟨⟨hsub hleastMem, ?_⟩, ⟨hsub hgreatestMem, ?_⟩⟩
    · rintro c (rfl | hc)
      · exact hleast (.inl rfl)
      · rcases (hsplit c).mp hc with hc | hc
        · exact hleast (.inr hc)
        · obtain ⟨⟨c', hc', hle⟩, -⟩ := hquiet c hc
          exact (hleast (hseen.mpr hc')).trans hle
    · rintro c (rfl | hc)
      · exact hgreatest (.inl rfl)
      · rcases (hsplit c).mp hc with hc | hc
        · exact hgreatest (.inr hc)
        · obtain ⟨-, c', hc', hle⟩ := hquiet c hc
          exact hle.trans (hgreatest (hseen.mpr hc'))

end path

/-! ## The labels -/

section labels

variable {α : Type} [LinearOrder α] [Zero α] [One α] [Add α] [Sub α] [Mul α] [Neg α]
  {r : List α} {b : Barriers α} {useLog : Bool}

/-- The path of a day over its whole horizon. -/
def horizonPath (r : List α) (b : Barriers α) (useLog : Bool) (t : ℕ) : List α :=
  cumulativePath useLog (horizonReturns r b t)

/-- Each day that has a whole horizon is described by the returns within it. -/
structure DescribesHorizon (r : List α) (b : Barriers α) (useLog : Bool)
    (out : List (DayLabel α)) : Prop where
  length : out.length = r.length - b.horizonDays
  touch : ∀ t d, out[t]? = some d → FirstTouch b 1 (horizonPath r b useLog t) d
  extremes : ∀ t d, out[t]? = some d → Extremes (horizonPath r b useLog t) d

/-- The labels are always those of the first touch; the extremes are those of the horizon just where
it stays between them after the touch. -/
theorem barrier_labels_iff (h : b.horizonDays < r.length) :
    ∃ out, tripleBarrierLabels r b useLog = .ok out ∧
      (∀ t d, out[t]? = some d → FirstTouch b 1 (horizonPath r b useLog t) d) ∧
      (DescribesHorizon r b useLog out ↔
        ∀ t < r.length - b.horizonDays, Quiet b (horizonPath r b useLog t)) := by
  refine ⟨_, if_neg h.not_ge, ?_⟩
  have hday : ∀ t d, ((List.range (r.length - b.horizonDays)).map fun t =>
      walkBarriers b useLog (horizonReturns r b t) 1 0 0 0)[t]? = some d ↔
      t < r.length - b.horizonDays ∧ d = walkBarriers b useLog (horizonReturns r b t) 1 0 0 0 := by
    intro t d
    rw [List.getElem?_map, Option.map_eq_some_iff]
    constructor
    · rintro ⟨t', ht, rfl⟩
      obtain ⟨hlt, rfl⟩ := List.getElem?_eq_some_iff.mp ht
      rw [List.length_range] at hlt
      rw [List.getElem_range]
      exact ⟨hlt, rfl⟩
    · rintro ⟨hlt, rfl⟩
      exact ⟨t, List.getElem?_range hlt, rfl⟩
  have htouch : ∀ t, FirstTouch b 1 (horizonPath r b useLog t)
      (walkBarriers b useLog (horizonReturns r b t) 1 0 0 0) := fun t => by
    rw [horizonPath, cumulativePath, ← cums_eq]
    exact walkBarriers_firstTouch ..
  have hextremes : ∀ t, Extremes (horizonPath r b useLog t)
      (walkBarriers b useLog (horizonReturns r b t) 1 0 0 0) ↔
        Quiet b (horizonPath r b useLog t) := fun t => by
    rw [horizonPath, cumulativePath, ← cums_eq]
    exact extremes_iff_quiet (walkBarriers_extremes ..).1 (walkBarriers_extremes ..).2
  have htouches := fun t d hd => ((hday t d).mp hd).2 ▸ htouch t
  refine ⟨htouches, fun H t ht => ?_, fun hquiet => ⟨?_, htouches, fun t d hd => ?_⟩⟩
  · exact (hextremes t).mp (H.extremes t _ ((hday t _).mpr ⟨ht, rfl⟩))
  · rw [List.length_map, List.length_range]
  · obtain ⟨ht, rfl⟩ := (hday t d).mp hd
    exact (hextremes t).mpr (hquiet t ht)

end labels

/-- Two barriers of a tenth, and a horizon of two days. -/
def tenthBarriers : Barriers ℚ := ⟨1/10, 1/10, 2⟩

/-- A rally to the upper barrier, and a fall after it. -/
def rallyReturns : List ℚ := [0, 1/5, -1/2]

theorem barrier_labels_iff_rally :
    ∃ out, tripleBarrierLabels rallyReturns tenthBarriers true = .ok out ∧
    (∀ t d, out[t]? = some d →
      FirstTouch tenthBarriers 1 (horizonPath rallyReturns tenthBarriers true t) d) ∧
    (DescribesHorizon rallyReturns tenthBarriers true out ↔
      ∀ t < 3 - 2, Quiet tenthBarriers (horizonPath rallyReturns tenthBarriers true t)) :=
  barrier_labels_iff (by decide)

/-- The fall does not show in the minimum of the path. -/
theorem barrier_labels_touch_only : tripleBarrierLabels rallyReturns tenthBarriers true =
      .ok [⟨1, 1, .upper, 0, 1/5⟩] ∧
    -3/10 ∈ horizonPath rallyReturns tenthBarriers true 0 ∧
    ¬ DescribesHorizon rallyReturns tenthBarriers true [⟨1, 1, .upper, 0, 1/5⟩] := by
  have hmem : -3/10 ∈ horizonPath rallyReturns tenthBarriers true 0 := by decide +kernel
  refine ⟨by decide +kernel, hmem, fun H => ?_⟩
  exact absurd ((H.extremes 0 _ rfl).pathMin.2 (.inr hmem)) (by decide +kernel)

end P300
