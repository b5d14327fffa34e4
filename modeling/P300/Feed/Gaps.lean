import P300.Feed.Klines
import P300.Lib.Windows

/-!
# The gaps of a table

`data/sources/binance.py`, `_find_gaps` and `_missing_count`: on a table whose rows lie on one grid
the windows are exact, but for a floor one bar before the oldest row.
-/

namespace P300

open Intervals (Covers)
open Windows (Exact holes)

/-- `_missing_count` -/
def missingCount (gaps : List (Int × Int)) (cadence : Int) : Int :=
  (gaps.map fun gap => (gap.2 - gap.1) / cadence + 1).sum

/-- The rows and the floor lie on one grid, no row after `nowTs` and none before the floor. -/
structure OnGrid (openTimes : List Int) (cadence nowTs : Int) (sinceFloor : Option Int)
    (base : Int) :
    Prop where
  row : ∀ t ∈ openTimes, cadence ∣ t - base
  newest : ∀ t ∈ openTimes, t ≤ nowTs
  floor : ∀ f ∈ sinceFloor, cadence ∣ f - base
  oldest : ∀ f ∈ sinceFloor, ∀ t ∈ openTimes, f ≤ t

/-- What a gap search of the table is to tell. -/
structure ExactGaps (openTimes : List Int) (cadence nowTs : Int) (sinceFloor : Option Int)
    (base : Int) (gaps : List (Int × Int)) : Prop where
  nonempty : ∀ gap ∈ gaps, gap.1 ≤ gap.2
  separated : gaps.Pairwise fun a b => a.2 < b.1
  not_stored : ∀ t ∈ openTimes, ¬ Covers gaps t
  complete : ∀ p, cadence ∣ p - base → p ∉ openTimes →
    (∃ start ∈ sinceFloor.or openTimes.min?, start ≤ p) → p + cadence ≤ nowTs → Covers gaps p
  count : missingCount gaps cadence = {p | cadence ∣ p - base ∧ p ≤ nowTs ∧ Covers gaps p}.ncard

section

variable {openTimes : List Int} {cadence nowTs base minTs maxTs : Int} {sinceFloor : Option Int}

/-- The points of the leading window. -/
def Leading (cadence minTs : Int) (sinceFloor : Option Int) (p : Int) : Prop :=
  ∃ floor ∈ sinceFloor, minTs - floor > cadence ∧ floor ≤ p ∧ p < minTs

theorem exact_leading (hcadence : 0 < cadence) (hmin : cadence ∣ minTs - base) :
    (∀ f ∈ sinceFloor, cadence ∣ f - base) →
      Exact cadence base (match sinceFloor with
        | some floor => if minTs - floor > cadence then [(floor, minTs - cadence)] else []
        | none => []) (Leading cadence minTs sinceFloor) := by
  intro hfloor
  cases sinceFloor with
  | none => exact .nil fun p _ ⟨_, hf, _⟩ => by cases hf
  | some floor =>
    have hgrid : cadence ∣ floor - base := hfloor floor rfl
    dsimp only
    split
    · next hgt =>
      refine (Exact.singleton hgrid (by omega)).congr fun p hp => ?_
      constructor
      · intro h
        exact ⟨floor, rfl, hgt, h.1, by omega⟩
      · rintro ⟨_, ⟨⟩, _, hle, hlt⟩
        have hstep := Windows.add_step_le hp hmin hlt
        omega
    · next hle =>
      refine .nil fun p _ => ?_
      rintro ⟨_, ⟨⟩, hgt, _⟩
      exact hle hgt

theorem exact_trailing (hcadence : 0 < cadence) (hmax : cadence ∣ maxTs - base) :
    Exact cadence base (if nowTs - maxTs > cadence then [(maxTs + cadence, nowTs)] else [])
      fun p => nowTs - maxTs > cadence ∧ maxTs < p ∧ p ≤ nowTs := by
  split
  · next hgt =>
    refine (Exact.singleton (Windows.grid_add_step hmax) (by omega)).congr fun p hp => ?_
    constructor
    · intro h
      omega
    · intro h
      have hstep := Windows.add_step_le hmax hp h.2.1
      omega
  · next hle => exact .nil fun p _ h => hle h.1

/-- The windows between the stored rows, in their order. -/
theorem exact_internal (hcadence : 0 < cadence) (H : OnGrid openTimes cadence nowTs sinceFloor base)
    (hmin : openTimes.min? = some minTs) (hmax : openTimes.max? = some maxTs) :
    Exact cadence base (holes cadence (openTimes.insertionSort (· ≤ ·)))
      fun p => minTs ≤ p ∧ p ∉ openTimes ∧ p ≤ maxTs := by
  obtain ⟨hminMem, hminLe⟩ := List.min?_eq_some_iff.mp hmin
  obtain ⟨hmaxMem, hmaxLe⟩ := List.max?_eq_some_iff.mp hmax
  have hperm : ∀ t, t ∈ openTimes.insertionSort (· ≤ ·) ↔ t ∈ openTimes := fun _ =>
    (List.perm_insertionSort _ openTimes).mem_iff
  have hsorted : (openTimes.insertionSort (· ≤ ·)).Pairwise (· ≤ ·) :=
    List.pairwise_insertionSort _ _
  cases hordered : openTimes.insertionSort (· ≤ ·) with
  | nil =>
    rw [hordered] at hperm
    cases (hperm minTs).mpr hminMem
  | cons a l =>
    rw [hordered] at hperm hsorted
    obtain rfl : a = minTs := by
      refine le_antisymm ?_ (hminLe a ((hperm a).mp List.mem_cons_self))
      rcases List.mem_cons.mp ((hperm minTs).mpr hminMem) with h | h
      · exact h.ge
      · exact (List.pairwise_cons.mp hsorted).1 _ h
    refine (Windows.exact_holes hcadence (fun t ht => H.row t ((hperm t).mp ht)) hsorted).congr
      fun p _ => ?_
    simp only [hperm]
    refine and_congr_right fun _ => and_congr_right fun _ => ⟨?_, fun h => ⟨maxTs, hmaxMem, h⟩⟩
    rintro ⟨b, hb, hpb⟩
    exact hpb.trans (hmaxLe b hb)

/-- The points of the windows of a table with rows. -/
def Told (openTimes : List Int) (cadence nowTs minTs maxTs : Int) (sinceFloor : Option Int)
    (p : Int) : Prop :=
  Leading cadence minTs sinceFloor p ∨ (minTs ≤ p ∧ p ∉ openTimes ∧ p ≤ maxTs) ∨
    nowTs - maxTs > cadence ∧ maxTs < p ∧ p ≤ nowTs

/-- The windows of a table with rows, put in order. -/
theorem exact_findGaps (hcadence : 0 < cadence) (H : OnGrid openTimes cadence nowTs sinceFloor base)
    (hmin : openTimes.min? = some minTs) (hmax : openTimes.max? = some maxTs) :
    Exact cadence base (findGaps openTimes cadence nowTs sinceFloor)
      (Told openTimes cadence nowTs minTs maxTs sinceFloor) := by
  obtain ⟨hminMem, hminLe⟩ := List.min?_eq_some_iff.mp hmin
  obtain ⟨hmaxMem, hmaxLe⟩ := List.max?_eq_some_iff.mp hmax
  have hinternal := exact_internal hcadence H hmin hmax
  have htrailing : Exact cadence base _ fun p => nowTs - maxTs > cadence ∧ maxTs < p ∧ p ≤ nowTs :=
    exact_trailing hcadence (H.row _ hmaxMem)
  have hall := (exact_leading hcadence (H.row _ hminMem) H.floor).append
    (hinternal.append htrailing fun p p' hp hp' => hp.2.2.trans_lt hp'.2.1)
    (by
      rintro p p' ⟨_, _, _, _, hlt⟩ (hp' | hp')
      · exact hlt.trans_le hp'.1
      · exact (hlt.trans_le (hminLe _ hmaxMem)).trans hp'.2.1)
  have hsorted := hall.separated.imp_of_mem fun {a b} ha _ hab => (hall.le a ha).trans_lt hab
  unfold findGaps
  simp only [hmin, hmax]
  rw [← Intervals.sorted_eq hsorted List.perm_append_comm] at hall
  exact hall

/-- The windows of an empty table. -/
theorem exact_findGaps_nil (hfloor : ∀ f ∈ sinceFloor, cadence ∣ f - base) :
    Exact cadence base (findGaps [] cadence nowTs sinceFloor) fun p =>
      ∃ floor ∈ sinceFloor, floor < nowTs ∧ floor ≤ p ∧ p ≤ nowTs := by
  cases sinceFloor with
  | none => exact .nil fun p _ ⟨_, hf, _⟩ => by cases hf
  | some floor =>
    have hgaps : findGaps [] cadence nowTs (some floor) =
        Intervals.sorted (if floor < nowTs then [(floor, nowTs)] else []) := rfl
    rw [hgaps]
    split
    · next hlt =>
      refine (Exact.singleton (hfloor floor rfl) hlt.le).congr fun p _ => ?_
      exact ⟨fun h => ⟨floor, rfl, hlt, h⟩, by rintro ⟨_, ⟨⟩, _, h⟩; exact h⟩
    · next hge =>
      refine .nil fun p _ => ?_
      rintro ⟨_, ⟨⟩, hlt, _⟩
      exact hge hlt

/-- Windows of a set of missing points up to `nowTs` are exact if they miss no point. -/
theorem exactGaps_iff {gaps : List (Int × Int)} {P : Int → Prop} (hcadence : 0 < cadence)
    (hrow : ∀ t ∈ openTimes, cadence ∣ t - base) (hgaps : Exact cadence base gaps P)
    (hmissing : ∀ p, P p → p ∉ openTimes ∧ p ≤ nowTs) :
    ExactGaps openTimes cadence nowTs sinceFloor base gaps ↔
      ∀ p, cadence ∣ p - base → p ∉ openTimes →
        (∃ start ∈ sinceFloor.or openTimes.min?, start ≤ p) →
        p + cadence ≤ nowTs → P p := by
  constructor
  · intro H p hp hne hstart hnow
    exact (hgaps.covers p hp).mp (H.complete p hp hne hstart hnow)
  · intro h
    refine ⟨hgaps.le, hgaps.separated, fun t ht hc => ?_, fun p hp hne hstart hnow => ?_, ?_⟩
    · exact (hmissing t ((hgaps.covers t (hrow t ht)).mp hc)).1 ht
    · exact (hgaps.covers p hp).mpr (h p hp hne hstart hnow)
    · have hpoints : {p | cadence ∣ p - base ∧ Covers gaps p} =
          {p | cadence ∣ p - base ∧ p ≤ nowTs ∧ Covers gaps p} := by
        ext p
        simp only [Set.mem_ofPred_eq]
        refine and_congr_right fun hp => ⟨fun hc => ⟨?_, hc⟩, fun hc => hc.2⟩
        exact (hmissing p ((hgaps.covers p hp).mp hc)).2
      rw [← hpoints]
      exact hgaps.sum_count hcadence

theorem not_mem_of_told (H : OnGrid openTimes cadence nowTs sinceFloor base)
    (hmin : openTimes.min? = some minTs) (hmax : openTimes.max? = some maxTs) {p : Int}
    (hp : Told openTimes cadence nowTs minTs maxTs sinceFloor p) : p ∉ openTimes ∧ p ≤ nowTs := by
  obtain ⟨hmaxMem, hmaxLe⟩ := List.max?_eq_some_iff.mp hmax
  have hminLe := (List.min?_eq_some_iff.mp hmin).2
  have hnewest := H.newest _ hmaxMem
  obtain ⟨_, _, _, _, hlt⟩ | ⟨_, hmem, hle⟩ | ⟨_, hgt, hle⟩ := hp
  · have := hminLe _ hmaxMem
    exact ⟨fun hmem => absurd hlt (not_lt.mpr (hminLe p hmem)), by omega⟩
  · exact ⟨hmem, hle.trans hnewest⟩
  · exact ⟨fun hmem => absurd hgt (not_lt.mpr (hmaxLe p hmem)), hle⟩

/-- A missing point from the floor or the oldest row on is told, unless the floor is one bar before
that row. -/
theorem told_of_missing (hcadence : 0 < cadence)
    (H : OnGrid openTimes cadence nowTs sinceFloor base) (hmin : openTimes.min? = some minTs)
    (hmax : openTimes.max? = some maxTs) (hfloor : sinceFloor ≠ some (minTs - cadence)) {p : Int}
    (hp : cadence ∣ p - base) (hmissing : p ∉ openTimes)
    (hstart : ∃ start ∈ sinceFloor.or (some minTs), start ≤ p) (hnow : p + cadence ≤ nowTs) :
    Told openTimes cadence nowTs minTs maxTs sinceFloor p := by
  have hminGrid := H.row _ (List.min?_eq_some_iff.mp hmin).1
  have hmaxGrid := H.row _ (List.max?_eq_some_iff.mp hmax).1
  rcases lt_or_ge p minTs with hlt | hge
  · obtain ⟨start, hstart, hle⟩ := hstart
    cases sinceFloor with
    | none =>
      cases hstart
      exact absurd hlt (not_lt.mpr hle)
    | some floor =>
      cases hstart
      have hstep : start + cadence ≤ minTs :=
        Windows.add_step_le (H.floor _ rfl) hminGrid (hle.trans_lt hlt)
      have hother : start ≠ minTs - cadence := fun h => hfloor (by rw [h])
      exact .inl ⟨start, rfl, by omega, hle, hlt⟩
  · rcases le_or_gt p maxTs with hle | hgt
    · exact .inr (.inl ⟨hge, hmissing, hle⟩)
    · have hstep := Windows.add_step_le hmaxGrid hp hgt
      exact .inr (.inr ⟨by omega, hgt, by omega⟩)

/-- A floor one bar before the oldest row is missing, and no window has it. -/
theorem not_told_floor (nowTs : Int) (hcadence : 0 < cadence) (hmin : openTimes.min? = some minTs)
    (hmax : openTimes.max? = some maxTs) :
    minTs - cadence ∉ openTimes ∧ ¬ Told openTimes cadence nowTs minTs maxTs
      (some (minTs - cadence)) (minTs - cadence) := by
  have hminLe := (List.min?_eq_some_iff.mp hmin).2
  have hle := hminLe _ (List.max?_eq_some_iff.mp hmax).1
  constructor
  · intro hmem
    have := hminLe _ hmem
    omega
  · rintro (⟨_, ⟨⟩, hgt, -⟩ | hin | htrail)
    · omega
    · omega
    · omega

end

/-- The leading rule asks for more than one bar, so a floor one bar before the oldest row is not
told. -/
theorem exactGaps_findGaps_iff {openTimes : List Int} {cadence nowTs base : Int}
    {sinceFloor : Option Int} (hcadence : 0 < cadence)
    (H : OnGrid openTimes cadence nowTs sinceFloor base) :
    ExactGaps openTimes cadence nowTs sinceFloor base
      (findGaps openTimes cadence nowTs sinceFloor) ↔
      ∀ minTs ∈ openTimes.min?, sinceFloor ≠ some (minTs - cadence) := by
  rcases eq_or_ne openTimes [] with rfl | hne
  · have hgaps : Exact cadence base (findGaps [] cadence nowTs sinceFloor) _ :=
      exact_findGaps_nil H.floor
    rw [exactGaps_iff hcadence H.row hgaps (fun p ⟨_, _, _, _, hp⟩ => ⟨List.not_mem_nil, hp⟩)]
    refine iff_of_true (fun p _ _ hstart hnow => ?_) (by simp)
    obtain ⟨floor, hfloor, hle⟩ := hstart
    have hfloor : floor ∈ sinceFloor := by simpa using hfloor
    exact ⟨floor, hfloor, by omega, hle, by omega⟩
  · obtain ⟨minTs, hmin⟩ := Option.isSome_iff_exists.mp (List.isSome_min?_iff.mpr hne)
    obtain ⟨maxTs, hmax⟩ := Option.isSome_iff_exists.mp (List.isSome_max?_iff.mpr hne)
    rw [exactGaps_iff hcadence H.row (exact_findGaps hcadence H hmin hmax)
      fun p hp => not_mem_of_told H hmin hmax hp, hmin]
    simp only [Option.mem_some_iff, forall_eq']
    refine ⟨?_, fun hfloor p hp => told_of_missing hcadence H hmin hmax hfloor hp⟩
    rintro h rfl
    obtain ⟨hmissing, hnot⟩ := not_told_floor nowTs hcadence hmin hmax
    have hnow : minTs - cadence + cadence ≤ nowTs := by
      have hminMem := (List.min?_eq_some_iff.mp hmin).1
      have := H.newest _ hminMem
      omega
    exact hnot (h _ (H.floor _ rfl) hmissing ⟨_, rfl, le_rfl⟩ hnow)

/-- Two rows a bar apart, one missing before a third one, and a floor two bars before the oldest. -/
theorem exactGaps_findGaps_iff_hours :
    ExactGaps [7200, 10800, 18000] 3600 25300 (some 0) 0
      (findGaps [7200, 10800, 18000] 3600 25300 (some 0)) ↔
        ∀ minTs ∈ [7200, 10800, 18000].min?, (some 0 : Option Int) ≠ some (minTs - 3600) :=
  exactGaps_findGaps_iff (by decide)
    ⟨by decide, by decide, by rintro _ ⟨⟩; decide, by rintro _ ⟨⟩; decide⟩

/-- One row and a floor one bar before it: the bar at the floor is missing, and there is no
window. -/
theorem not_exactGaps_leading : OnGrid [3600] 3600 3600 (some 0) 0 ∧
    ¬ ExactGaps [3600] 3600 3600 (some 0) 0 (findGaps [3600] 3600 3600 (some 0)) := by
  refine ⟨⟨by decide, by decide, by rintro _ ⟨⟩; decide, by rintro _ ⟨⟩; decide⟩, fun H => ?_⟩
  obtain ⟨gap, hgap, -⟩ := H.complete 0 (by decide) (by decide) ⟨0, rfl, le_rfl⟩ le_rfl
  have hnone : findGaps [3600] 3600 3600 (some 0) = [] := by decide
  rw [hnone] at hgap
  cases hgap

end P300
