import Mathlib.Algebra.Order.Group.Abs
import Mathlib.Algebra.Order.Ring.Int
import Mathlib.Data.List.Forall2
import Mathlib.Data.List.GetD
import P300.Calendar
import P300.Lib.Combinations

/-!
# Combinatorial purged cross-validation

`build_groups`, `purge_train`, `expand_event_dates`, `drop_event_indices` and `cpcv_splits` of
`studies/lib/validation/cpcv.py`. A date is a number of days since the epoch. An index is a position
in the list of dates, so that reading a date at an index does not fail.
-/

namespace P300

/-- `build_groups` -/
def buildGroups (dates : List Int) (nGroups : ℕ) : Except String (List (List ℕ)) :=
  if nGroups = 0 then .error "ZeroDivisionError"
  else
    let n := dates.length
    let size := n / nGroups
    let groups := (List.range nGroups).map fun i => List.range' (i * size) size
    -- the last group gets the remainder
    .ok (groups.set (nGroups - 1) (List.range' ((nGroups - 1) * size) (n - (nGroups - 1) * size)))

/-- The body of the loop of `purge_train`. -/
def purgeStep (testDates dates : List Int) (embargoDays : Int) (purged : List ℕ) (i : ℕ) :
    Except String (List ℕ) :=
  match (testDates.map fun td => |dateAt dates i - td|).min? with
  | none => .error "ValueError"
  | some minDist => .ok (if minDist > embargoDays then purged ++ [i] else purged)

/-- `purge_train` -/
def purgeTrain (trainIdx testIdx : List ℕ) (dates : List Int) (embargoDays : Int) :
    Except String (List ℕ) :=
  if embargoDays ≤ 0 then .ok trainIdx
  else trainIdx.foldlM (purgeStep (testIdx.map (dateAt dates)) dates embargoDays) []

/-- `expand_event_dates` -/
def expandEventDates (eventDates : List Int) (purgeDays : Int) : Except String (List Int) :=
  if purgeDays < 0 ∨ eventDates = [] then .ok []
  else
    let out := eventDates.flatMap fun d =>
      (List.range (2 * purgeDays.toNat + 1)).map fun k : ℕ => d + (k - purgeDays)
    if ∀ d ∈ out, InRange d then .ok out else .error "OverflowError"

/-- `drop_event_indices` -/
def dropEventIndices (indices : List ℕ) (dates forbidden : List Int) : List ℕ :=
  if forbidden = [] then indices else indices.filter fun i => dateAt dates i ∉ forbidden

/-- The test indices of a choice of groups. -/
def testIndices (groups : List (List ℕ)) (testGroupIds : List ℕ) : List ℕ :=
  (testGroupIds.flatMap fun g => groups.getD g []).mergeSort

/-- `cpcv_splits` -/
def cpcvSplits (dates : List Int) (nGroups kTest : ℕ) (embargoDays : Int) (eventDates : List Int)
    (eventPurgeDays : Int) : Except String (List (List ℕ × List ℕ)) := do
  let groups ← buildGroups dates nGroups
  let forbidden ← expandEventDates eventDates eventPurgeDays
  (Combinations.combinations kTest (List.range nGroups)).mapM fun testGroupIds => do
    let testIdx := testIndices groups testGroupIds
    let trainRaw := (List.range dates.length).filter fun i => i ∉ testIdx
    let trainPurged ← purgeTrain trainRaw testIdx dates embargoDays
    return (dropEventIndices trainPurged dates forbidden, dropEventIndices testIdx dates forbidden)

/-! ## The groups -/

section groups

variable {dates : List Int} {nGroups : ℕ} {groups : List (List ℕ)} {i g : ℕ}

/-- The group of an index. -/
def groupOf (size nGroups i : ℕ) : ℕ := min (i / size) (nGroups - 1)

theorem groupOf_lt {size : ℕ} (h : 0 < nGroups) : groupOf size nGroups i < nGroups :=
  lt_of_le_of_lt (min_le_right ..) (Nat.sub_lt h one_pos)

/-- The groups have one size, but the last one has what is left. -/
theorem getD_groups (h : buildGroups dates nGroups = .ok groups) (hg : g < nGroups) :
    groups.getD g [] = if g = nGroups - 1 then
        List.range' (g * (dates.length / nGroups))
          (dates.length - g * (dates.length / nGroups))
      else List.range' (g * (dates.length / nGroups)) (dates.length / nGroups) := by
  have hpos : 0 < nGroups := by omega
  rw [buildGroups, if_neg hpos.ne'] at h
  cases h
  rw [List.getD_eq_getElem?_getD, List.getElem?_set, List.length_map, List.length_range]
  by_cases hlast : g = nGroups - 1
  · rw [if_pos hlast.symm, if_pos (hlast ▸ hg), if_pos hlast, hlast, Option.getD_some]
  · rw [if_neg (Ne.symm hlast), if_neg hlast, List.getElem?_map, List.getElem?_range hg,
      Option.map_some, Option.getD_some]

theorem lt_of_mem_group (h : buildGroups dates nGroups = .ok groups) (hg : g < nGroups)
    (hi : i ∈ groups.getD g []) : i < dates.length := by
  have hfit : nGroups * (dates.length / nGroups) ≤ dates.length := Nat.mul_div_le ..
  have hup : (g + 1) * (dates.length / nGroups) ≤ nGroups * (dates.length / nGroups) :=
    Nat.mul_le_mul_right _ hg
  rw [Nat.succ_mul] at hup
  rw [getD_groups h hg] at hi
  split at hi
  · rw [List.mem_range'_1] at hi
    omega
  · rw [List.mem_range'_1] at hi
    omega

/-- Each index is in a group, also where there are more groups than dates. -/
theorem exists_group (h : buildGroups dates nGroups = .ok groups) (hpos : 0 < nGroups)
    (hi : i < dates.length) : ∃ g < nGroups, i ∈ groups.getD g [] := by
  by_cases hlast : (nGroups - 1) * (dates.length / nGroups) ≤ i
  · refine ⟨nGroups - 1, Nat.sub_lt hpos one_pos, ?_⟩
    rw [getD_groups h (Nat.sub_lt hpos one_pos), if_pos rfl, List.mem_range'_1]
    omega
  · have hsize : 0 < dates.length / nGroups :=
      Nat.pos_of_ne_zero fun h0 => hlast (by rw [h0, Nat.mul_zero]; exact Nat.zero_le i)
    have hg : i / (dates.length / nGroups) < nGroups - 1 :=
      (Nat.div_lt_iff_lt_mul hsize).mpr (not_le.mp hlast)
    refine ⟨i / (dates.length / nGroups), by omega, ?_⟩
    rw [getD_groups h (by omega), if_neg hg.ne, List.mem_range'_1]
    have hmod := Nat.mod_lt i hsize
    have hdiv := Nat.div_add_mod' i (dates.length / nGroups)
    omega

/-- Each index is in one group. -/
theorem mem_group (h : buildGroups dates nGroups = .ok groups) (hn : nGroups ≤ dates.length)
    (hg : g < nGroups) :
    i ∈ groups.getD g [] ↔ i < dates.length ∧ groupOf (dates.length / nGroups) nGroups i = g := by
  rw [getD_groups h hg, groupOf]
  have hpos : 0 < nGroups := by omega
  have hsize : 0 < dates.length / nGroups := Nat.div_pos hn hpos
  have hfit : nGroups * (dates.length / nGroups) ≤ dates.length := Nat.mul_div_le ..
  generalize dates.length = n at hn hsize hfit ⊢
  generalize n / nGroups = size at hsize hfit ⊢
  have hlast : nGroups * size = (nGroups - 1) * size + size := by
    rw [← Nat.succ_mul, Nat.succ_eq_add_one, Nat.sub_add_cancel hpos]
  have hgroup := (Nat.le_div_iff_mul_le hsize (x := g) (y := i)).symm
  split
  · next hg' =>
    subst hg'
    rw [List.mem_range'_1]
    omega
  · have hgroup' := (Nat.div_lt_iff_lt_mul hsize (x := i) (y := g + 1)).symm
    have hup : (g + 1) * size ≤ (nGroups - 1) * size := Nat.mul_le_mul_right size (by omega)
    rw [Nat.succ_mul] at hgroup' hup
    rw [List.mem_range'_1]
    omega

/-- An index is in the test fold if its group is. -/
theorem mem_testIndices (h : buildGroups dates nGroups = .ok groups) (hn : nGroups ≤ dates.length)
    {ids : List ℕ} (hids : ids.Sublist (List.range nGroups)) :
    i ∈ testIndices groups ids ↔ i < dates.length ∧
      groupOf (dates.length / nGroups) nGroups i ∈ ids := by
  rw [testIndices, List.mem_mergeSort, List.mem_flatMap]
  constructor
  · rintro ⟨g, hg, hi⟩
    obtain ⟨hlt, rfl⟩ := (mem_group h hn (List.mem_range.mp (hids.subset hg))).mp hi
    exact ⟨hlt, hg⟩
  · rintro ⟨hi, hg⟩
    exact ⟨_, hg, (mem_group h hn (List.mem_range.mp (hids.subset hg))).mpr ⟨hi, rfl⟩⟩

theorem testIndices_ne_nil (h : buildGroups dates nGroups = .ok groups)
    (hn : nGroups ≤ dates.length) {ids : List ℕ} (hids : ids.Sublist (List.range nGroups))
    (hne : ids ≠ []) : testIndices groups ids ≠ [] := by
  obtain ⟨g, hg⟩ := List.exists_mem_of_ne_nil _ hne
  have hlt := List.mem_range.mp (hids.subset hg)
  have hsize : 0 < dates.length / nGroups := Nat.div_pos hn (by omega)
  have hfit : nGroups * (dates.length / nGroups) ≤ dates.length := Nat.mul_div_le ..
  -- the first index of the group
  have hfirst : g * (dates.length / nGroups) < dates.length :=
    lt_of_lt_of_le (Nat.mul_lt_mul_of_pos_right hlt hsize) hfit
  refine List.ne_nil_of_mem ((mem_testIndices h hn hids).mpr ⟨hfirst, ?_⟩)
  rwa [groupOf, Nat.mul_div_cancel _ hsize, min_eq_left (by omega)]

end groups

/-! ## The purges -/

section purges

variable {dates eventDates forbidden : List Int} {trainIdx testIdx : List ℕ}
  {embargoDays purgeDays : Int}

/-- The date of an index is farther than the embargo from all test dates. -/
def FarFrom (dates : List Int) (testIdx : List ℕ) (embargoDays : Int) (i : ℕ) : Prop :=
  ∀ j ∈ testIdx, embargoDays < |dateAt dates i - dateAt dates j|

instance (i : ℕ) : Decidable (FarFrom dates testIdx embargoDays i) :=
  inferInstanceAs (Decidable (∀ j ∈ testIdx, _))

theorem purgeStep_eq (htest : testIdx ≠ []) (purged : List ℕ) (i : ℕ) :
    purgeStep (testIdx.map (dateAt dates)) dates embargoDays purged i =
      .ok (if FarFrom dates testIdx embargoDays i then purged ++ [i] else purged) := by
  unfold purgeStep
  rw [List.map_map]
  cases hmin : (testIdx.map ((fun td => |dateAt dates i - td|) ∘ dateAt dates)).min? with
  | none => exact (htest (List.map_eq_nil_iff.mp (List.min?_eq_none_iff.mp hmin))).elim
  | some minDist =>
    obtain ⟨hmem, hle⟩ := List.min?_eq_some_iff.mp hmin
    refine congrArg Except.ok (if_congr ⟨fun hlt j hj => ?_, fun hfar => ?_⟩ rfl rfl)
    · exact lt_of_lt_of_le hlt (hle _ (List.mem_map_of_mem hj))
    · obtain ⟨j, hj, rfl⟩ := List.mem_map.mp hmem
      exact hfar j hj

theorem foldlM_purgeStep (htest : testIdx ≠ []) (purged : List ℕ) :
    trainIdx.foldlM (purgeStep (testIdx.map (dateAt dates)) dates embargoDays) purged =
      .ok (purged ++ trainIdx.filter (FarFrom dates testIdx embargoDays ·)) := by
  induction trainIdx generalizing purged with
  | nil => exact congrArg Except.ok (List.append_nil purged).symm
  | cons i trainIdx ih =>
    rw [List.foldlM_cons, purgeStep_eq htest, ok_bind, ih, List.filter_cons]
    by_cases hfar : FarFrom dates testIdx embargoDays i
    · rw [if_pos hfar, if_pos (decide_eq_true hfar), List.append_assoc, List.singleton_append]
    · rw [if_neg hfar, if_neg (mt of_decide_eq_true hfar)]

theorem purgeTrain_eq (htest : testIdx ≠ []) : purgeTrain trainIdx testIdx dates embargoDays =
    .ok (trainIdx.filter fun i => embargoDays ≤ 0 ∨ FarFrom dates testIdx embargoDays i) := by
  unfold purgeTrain
  split
  · next h => simp [h]
  · next h =>
    rw [foldlM_purgeStep htest, List.nil_append]
    simp only [h, false_or]

theorem mem_expandEventDates (h : expandEventDates eventDates purgeDays = .ok forbidden) {d : Int} :
    d ∈ forbidden ↔ ∃ e ∈ eventDates, |d - e| ≤ purgeDays := by
  unfold expandEventDates at h
  split at h
  · next hnone =>
    cases h
    refine iff_of_false List.not_mem_nil ?_
    rintro ⟨e, he, hle⟩
    rcases hnone with hneg | rfl
    · exact absurd ((abs_nonneg _).trans hle) hneg.not_ge
    · cases he
  · next hsome =>
    dsimp only at h
    split at h
    · cases h
      rw [List.mem_flatMap]
      refine exists_congr fun e => and_congr_right fun _ => ?_
      rw [List.mem_map, abs_le]
      constructor
      · rintro ⟨k, hk, rfl⟩
        rw [List.mem_range] at hk
        omega
      · rintro ⟨hlo, hhi⟩
        exact ⟨(d - e + purgeDays).toNat, List.mem_range.mpr (by omega), by omega⟩
    · cases h

theorem expandEventDates_ok (h : ∀ e ∈ eventDates, ∀ d, |d - e| ≤ purgeDays → InRange d) :
    ∃ forbidden, expandEventDates eventDates purgeDays = .ok forbidden := by
  unfold expandEventDates
  split
  · exact ⟨_, rfl⟩
  · next hsome =>
    refine ⟨_, if_pos fun d hd => ?_⟩
    obtain ⟨e, he, hd⟩ := List.mem_flatMap.mp hd
    obtain ⟨k, hk, rfl⟩ := List.mem_map.mp hd
    rw [List.mem_range] at hk
    exact h e he _ (abs_le.mpr (by omega))

theorem mem_dropEventIndices {indices : List ℕ} {i : ℕ} :
    i ∈ dropEventIndices indices dates forbidden ↔ i ∈ indices ∧ dateAt dates i ∉ forbidden := by
  unfold dropEventIndices
  split
  · next h => simp [h]
  · rw [List.mem_filter, decide_eq_true_iff]

end purges

/-! ## The splits -/

/-- What a split with the given raw test indices keeps apart. -/
structure NoLeak (dates eventDates : List Int) (embargoDays purgeDays : Int) (testIdx : List ℕ)
    (split : List ℕ × List ℕ) : Prop where
  disjoint : ∀ i ∈ split.1, i ∉ split.2
  embargo : ∀ i ∈ split.1, FarFrom dates testIdx embargoDays i
  events : ∀ i ∈ split.1 ++ split.2, ∀ e ∈ eventDates, purgeDays < |dateAt dates i - e|

/-- What cross-validation promises of its splits. -/
structure CpcvSound (dates : List Int) (nGroups kTest : ℕ) (embargoDays : Int)
    (eventDates : List Int) (purgeDays : Int) (groups : List (List ℕ))
    (splits : List (List ℕ × List ℕ)) : Prop where
  noLeak : List.Forall₂ (fun testGroupIds split =>
      NoLeak dates eventDates embargoDays purgeDays (testIndices groups testGroupIds) split)
    (Combinations.combinations kTest (List.range nGroups)) splits
  length : splits.length = nGroups.choose kTest
  counts : eventDates = [] → ∀ i < dates.length,
    splits.countP (fun split => i ∈ split.2) = (nGroups - 1).choose (kTest - 1)

section splits

variable {dates eventDates forbidden : List Int} {nGroups kTest : ℕ} {embargoDays purgeDays : Int}
  {groups : List (List ℕ)} {splits : List (List ℕ × List ℕ)}

theorem dateAt_ne (hdates : dates.Pairwise (· < ·)) {i j : ℕ} (hi : i < dates.length)
    (hj : j < dates.length) (hij : i ≠ j) : 0 < |dateAt dates i - dateAt dates j| := by
  rw [abs_pos, sub_ne_zero, dateAt, dateAt, List.getD_eq_getElem _ _ hi,
    List.getD_eq_getElem _ _ hj]
  exact fun heq => hij ((List.Nodup.getElem_inj_iff (hdates.imp fun h => h.ne)).mp heq)

/-- The split of a choice of groups. -/
def splitOf (dates forbidden : List Int) (embargoDays : Int) (testIdx : List ℕ) : List ℕ × List ℕ :=
  (dropEventIndices (((List.range dates.length).filter fun i => i ∉ testIdx).filter fun i =>
    embargoDays ≤ 0 ∨ FarFrom dates testIdx embargoDays i) dates forbidden,
    dropEventIndices testIdx dates forbidden)

theorem splitOf_noLeak (hdates : dates.Pairwise (· < ·)) (hembargo : 0 ≤ embargoDays)
    (hforbidden : expandEventDates eventDates purgeDays = .ok forbidden) {testIdx : List ℕ}
    (htest : ∀ i ∈ testIdx, i < dates.length) :
    NoLeak dates eventDates embargoDays purgeDays testIdx
      (splitOf dates forbidden embargoDays testIdx) := by
  have htrain : ∀ i ∈ (splitOf dates forbidden embargoDays testIdx).1, (i < dates.length ∧
      i ∉ testIdx) ∧
      (embargoDays ≤ 0 ∨ FarFrom dates testIdx embargoDays i) := by
    intro i hi
    have hi := (mem_dropEventIndices.mp hi).1
    rwa [List.mem_filter, List.mem_filter, List.mem_range, decide_eq_true_iff,
      decide_eq_true_iff] at hi
  refine ⟨fun i hi h => (htrain i hi).1.2 (mem_dropEventIndices.mp h).1, fun i hi => ?_,
    fun i hi e he => ?_⟩
  · obtain ⟨⟨hlt, hnot⟩, hzero | hfar⟩ := htrain i hi
    · -- no embargo, but the dates are distinct
      obtain rfl : embargoDays = 0 := le_antisymm hzero hembargo
      exact fun j hj => dateAt_ne hdates hlt (htest j hj) fun h => hnot (h ▸ hj)
    · exact hfar
  · have hnot : dateAt dates i ∉ forbidden := by
      rcases List.mem_append.mp hi with hi | hi <;> exact (mem_dropEventIndices.mp hi).2
    rw [mem_expandEventDates hforbidden] at hnot
    exact not_le.mp fun h => hnot ⟨e, he, h⟩

theorem cpcvSplits_eq (hgroups : buildGroups dates nGroups = .ok groups)
    (hforbidden : expandEventDates eventDates purgeDays = .ok forbidden)
    (hn : nGroups ≤ dates.length) (hk : 1 ≤ kTest) :
    cpcvSplits dates nGroups kTest embargoDays eventDates purgeDays =
      .ok ((Combinations.combinations kTest (List.range nGroups)).map fun ids =>
        splitOf dates forbidden embargoDays (testIndices groups ids)) := by
  unfold cpcvSplits
  rw [hgroups, ok_bind, hforbidden, ok_bind]
  refine mapM_ok fun ids hids => ?_
  obtain ⟨hsub, hlen⟩ := Combinations.mem_combinations.mp hids
  have hne : ids ≠ [] := List.ne_nil_of_length_pos (hlen ▸ hk)
  dsimp only
  rw [purgeTrain_eq (testIndices_ne_nil hgroups hn hsub hne)]
  rfl

/-- An index is in the test fold of the choices with its group. -/
theorem countP_testIndices (hgroups : buildGroups dates nGroups = .ok groups)
    (hn : nGroups ≤ dates.length) (hk : 1 ≤ kTest) (hkn : kTest ≤ nGroups) {i : ℕ}
    (hi : i < dates.length) :
    (Combinations.combinations kTest (List.range nGroups)).countP
      (fun ids => i ∈ testIndices groups ids) =
      (nGroups - 1).choose (kTest - 1) := by
  have hmem : ∀ ids ∈ Combinations.combinations kTest (List.range nGroups),
      decide (i ∈ testIndices groups ids) = true ↔
        decide (groupOf (dates.length / nGroups) nGroups i ∈ ids) = true := by
    intro ids hids
    rw [decide_eq_true_iff, decide_eq_true_iff,
      mem_testIndices hgroups hn (Combinations.mem_combinations.mp hids).1, and_iff_right hi]
  rw [List.countP_congr hmem]
  obtain ⟨k, rfl⟩ := Nat.exists_eq_add_of_le' hk
  rw [Combinations.countP_mem_combinations List.nodup_range
    (List.mem_range.mpr (groupOf_lt (by omega))), List.length_range, Nat.add_sub_cancel]

/-- Cross-validation folds do not leak. -/
theorem cpcv_no_leak (hdates : dates.Pairwise (· < ·)) (hk : 1 ≤ kTest) (hkn : kTest ≤ nGroups)
    (hn : nGroups ≤ dates.length) (hembargo : 0 ≤ embargoDays) :
    ∃ groups, buildGroups dates nGroups = .ok groups ∧
      (∀ splits, cpcvSplits dates nGroups kTest embargoDays eventDates purgeDays = .ok splits →
        CpcvSound dates nGroups kTest embargoDays eventDates purgeDays groups splits) ∧
      ((∀ e ∈ eventDates, ∀ d, |d - e| ≤ purgeDays → InRange d) →
        ∃ splits, cpcvSplits dates nGroups kTest embargoDays eventDates purgeDays =
          .ok splits) := by
  have hpos : nGroups ≠ 0 := by omega
  obtain ⟨groups, hgroups⟩ : ∃ groups, buildGroups dates nGroups = .ok groups := ⟨_, if_neg hpos⟩
  refine ⟨groups, hgroups, fun splits hsplits => ?_, fun hrange => ?_⟩
  · cases hforbidden : expandEventDates eventDates purgeDays with
    | error e =>
      unfold cpcvSplits at hsplits
      rw [hgroups, ok_bind, hforbidden] at hsplits
      cases hsplits
    | ok forbidden =>
      rw [cpcvSplits_eq hgroups hforbidden hn hk] at hsplits
      cases hsplits
      refine ⟨?_, ?_, fun hnone i hi => ?_⟩
      · refine List.forall₂_map_right_iff.mpr (List.forall₂_same.mpr fun ids hids => ?_)
        exact splitOf_noLeak hdates hembargo hforbidden fun i hi =>
          ((mem_testIndices hgroups hn (Combinations.mem_combinations.mp hids).1).mp hi).1
      · rw [List.length_map, Combinations.length_combinations, List.length_range]
      · obtain rfl : forbidden = [] := by
          refine List.eq_nil_iff_forall_not_mem.mpr fun d hd => ?_
          obtain ⟨e, he, -⟩ := (mem_expandEventDates hforbidden).mp hd
          rw [hnone] at he
          cases he
        rw [List.countP_map]
        exact countP_testIndices hgroups hn hk hkn hi
  · obtain ⟨forbidden, hforbidden⟩ := expandEventDates_ok hrange
    exact ⟨_, cpcvSplits_eq hgroups hforbidden hn hk⟩

/-- Seven dates with a gap, in three groups; the event is the day before the gap. -/
theorem cpcv_no_leak_gap : ∃ groups splits, buildGroups [0, 1, 2, 3, 10, 11, 12] 3 = .ok groups ∧
    cpcvSplits [0, 1, 2, 3, 10, 11, 12] 3 2 1 [4] 1 = .ok splits ∧
    CpcvSound [0, 1, 2, 3, 10, 11, 12] 3 2 1 [4] 1 groups splits := by
  obtain ⟨groups, hgroups, hsound, hok⟩ :=
    @cpcv_no_leak [0, 1, 2, 3, 10, 11, 12] [4] 3 2 1 1 (by decide)
    (by decide) (by decide) (by decide) (by decide)
  obtain ⟨splits, hsplits⟩ := hok fun e he d hd => by
    obtain rfl := List.mem_singleton.mp he
    rw [abs_le] at hd
    exact inRange_iff.mpr (by omega)
  exact ⟨groups, splits, hgroups, hsplits, hsound splits hsplits⟩

end splits

end P300
