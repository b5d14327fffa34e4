import P300.Lib.Meter
import P300.Validation.Cpcv

/-!
# The event purge

The purge of `cpcv_splits` next to the neighbourhood that its documentation states. A width of `0`
days is documented as no purge, but `expand_event_dates` returns early below `0` only, so that the
event days themselves are dropped.
-/

namespace P300

/-- What the documentation states: days near an event are dropped, and none for a width of `0`. -/
def NearEvent (dates eventDates : List Int) (purgeDays : Int) (i : ℕ) : Prop :=
  0 < purgeDays ∧ ∃ e ∈ eventDates, |dateAt dates i - e| ≤ purgeDays

instance (dates eventDates : List Int) (purgeDays : Int) (i : ℕ) :
    Decidable (NearEvent dates eventDates purgeDays i) :=
  inferInstanceAs (Decidable (_ ∧ ∃ e ∈ eventDates, _))

/-- The folds are those without events, less the stated neighbourhood. -/
def PurgesStated (dates eventDates : List Int) (purgeDays : Int)
    (base splits : List (List ℕ × List ℕ)) : Prop :=
  splits = base.map fun s => (s.1.filter fun i => ¬ NearEvent dates eventDates purgeDays i,
    s.2.filter fun i => ¬ NearEvent dates eventDates purgeDays i)

instance (dates eventDates : List Int) (purgeDays : Int) (base splits : List (List ℕ × List ℕ)) :
    Decidable (PurgesStated dates eventDates purgeDays base splits) :=
  inferInstanceAs (Decidable (_ = _))

/-! ## The purge as one map -/

section purge

variable {dates eventDates forbidden : List Int} {nGroups kTest : ℕ} {embargoDays purgeDays : Int}
  {groups : List (List ℕ)} {base splits : List (List ℕ × List ℕ)} {i : ℕ}

/-- The folds of a choice of groups before the event purge. -/
def rawSplit (dates : List Int) (groups : List (List ℕ)) (embargoDays : Int) (ids : List ℕ) :
    Except String (List ℕ × List ℕ) := do
  let testIdx := testIndices groups ids
  let trainRaw := (List.range dates.length).filter fun i => i ∉ testIdx
  let trainPurged ← purgeTrain trainRaw testIdx dates embargoDays
  return (trainPurged, testIdx)

/-- Both folds without the forbidden dates. -/
def dropBoth (dates forbidden : List Int) (s : List ℕ × List ℕ) : List ℕ × List ℕ :=
  (dropEventIndices s.1 dates forbidden, dropEventIndices s.2 dates forbidden)

theorem cpcvSplits_eq_rawSplit (hgroups : buildGroups dates nGroups = .ok groups)
    (hforbidden : expandEventDates eventDates purgeDays = .ok forbidden) :
    cpcvSplits dates nGroups kTest embargoDays eventDates purgeDays =
      (Combinations.combinations kTest (List.range nGroups)).mapM fun ids =>
        rawSplit dates groups embargoDays ids >>= fun s => .ok (dropBoth dates forbidden s) := by
  unfold cpcvSplits
  rw [hgroups, ok_bind, hforbidden, ok_bind]
  congr 1
  funext ids
  unfold rawSplit
  dsimp only
  cases purgeTrain ((List.range dates.length).filter fun i => i ∉ testIndices groups ids)
    (testIndices groups ids) dates embargoDays with
  | error e => rfl
  | ok train => rfl

theorem exists_rawSplit
    (hbase : cpcvSplits dates nGroups kTest embargoDays [] purgeDays = .ok base) :
    ∃ groups, buildGroups dates nGroups = .ok groups ∧
      (Combinations.combinations kTest (List.range nGroups)).mapM
        (rawSplit dates groups embargoDays) = .ok base := by
  obtain ⟨groups, hgroups, -⟩ := of_bind_ok hbase
  have hnone : expandEventDates [] purgeDays = .ok [] := if_pos (.inr rfl)
  rw [cpcvSplits_eq_rawSplit hgroups hnone] at hbase
  refine ⟨groups, hgroups, Eq.trans ?_ hbase⟩
  congr 1
  funext ids
  cases rawSplit dates groups embargoDays ids with
  | error e => rfl
  | ok s => rfl

/-- The folds of a purge are those without events, each without the forbidden dates. -/
theorem cpcvSplits_eq_map
    (hbase : cpcvSplits dates nGroups kTest embargoDays [] purgeDays = .ok base)
    (hforbidden : expandEventDates eventDates purgeDays = .ok forbidden) :
    cpcvSplits dates nGroups kTest embargoDays eventDates purgeDays =
      .ok (base.map (dropBoth dates forbidden)) := by
  obtain ⟨groups, hgroups, hraw⟩ := exists_rawSplit hbase
  rw [cpcvSplits_eq_rawSplit hgroups hforbidden]
  exact Meter.mapM_map _ hraw

/-! ## The folds cover the indices -/

theorem rawSplit_ok {ids : List ℕ} {s : List ℕ × List ℕ}
    (h : rawSplit dates groups embargoDays ids = .ok s) :
    purgeTrain ((List.range dates.length).filter fun i => i ∉ testIndices groups ids)
      (testIndices groups ids) dates embargoDays = .ok s.1 ∧ s.2 = testIndices groups ids := by
  obtain ⟨train, htrain, h⟩ := of_bind_ok h
  cases h
  exact ⟨htrain, rfl⟩

/-- Without a test date there is an embargo only if there is nothing to train on. -/
theorem purgeTrain_nil {trainIdx purged : List ℕ}
    (h : purgeTrain trainIdx [] dates embargoDays = .ok purged) : purged = trainIdx := by
  unfold purgeTrain at h
  split at h
  · exact (Except.ok.inj h).symm
  · cases trainIdx with
    | nil => exact (Except.ok.inj h).symm
    | cons i trainIdx => cases h

theorem purgeTrain_subset {trainIdx testIdx purged : List ℕ}
    (h : purgeTrain trainIdx testIdx dates embargoDays = .ok purged) (hi : i ∈ purged) :
    i ∈ trainIdx := by
  by_cases htest : testIdx = []
  · subst htest
    exact purgeTrain_nil h ▸ hi
  · rw [purgeTrain_eq htest] at h
    cases h
    exact List.mem_of_mem_filter hi

section folds

variable (hgroups : buildGroups dates nGroups = .ok groups)
  (hraw : (Combinations.combinations kTest (List.range nGroups)).mapM
    (rawSplit dates groups embargoDays) = .ok base)

include hgroups hraw

theorem lt_of_mem_fold {s : List ℕ × List ℕ} (hs : s ∈ base) (hi : i ∈ s.1 ∨ i ∈ s.2) :
    i < dates.length := by
  obtain ⟨ids, hids, hs⟩ := Meter.mem_of_mapM hraw hs
  obtain ⟨htrain, htest⟩ := rawSplit_ok hs
  rcases hi with hi | hi
  · exact List.mem_range.mp (List.mem_of_mem_filter (purgeTrain_subset htrain hi))
  · rw [htest, testIndices, List.mem_mergeSort, List.mem_flatMap] at hi
    obtain ⟨g, hg, hi⟩ := hi
    have hsub := (Combinations.mem_combinations.mp hids).1
    exact lt_of_mem_group hgroups (List.mem_range.mp (hsub.subset hg)) hi

/-- With no group held out, all indices are trained on; else each index is tested on. -/
theorem exists_fold (hkn : kTest ≤ nGroups) (hi : i < dates.length) :
    ∃ s ∈ base, i ∈ s.1 ∨ i ∈ s.2 := by
  have hpos : 0 < nGroups := by
    refine Nat.pos_of_ne_zero fun h0 => ?_
    rw [buildGroups, if_pos h0] at hgroups
    cases hgroups
  cases kTest with
  | zero =>
    obtain ⟨s, hs, hok⟩ := Meter.exists_of_mapM hraw (a := [])
      (by rw [Combinations.combinations_zero]; exact List.mem_singleton_self _)
    obtain ⟨htrain, -⟩ := rawSplit_ok hok
    refine ⟨s, hs, .inl ?_⟩
    have htest : testIndices groups [] = [] := List.mergeSort_nil
    rw [htest] at htrain
    rw [purgeTrain_nil htrain, List.mem_filter]
    exact ⟨List.mem_range.mpr hi, by simp⟩
  | succ k =>
    obtain ⟨g, hg, hig⟩ := exists_group hgroups hpos hi
    have hcount := Combinations.countP_mem_combinations (k := k) List.nodup_range
      (List.mem_range.mpr hg)
    have hchoose : 0 < (nGroups - 1).choose k := Nat.choose_pos (by omega)
    rw [List.length_range] at hcount
    obtain ⟨ids, hids, hmem⟩ := List.countP_pos_iff.mp (hcount ▸ hchoose)
    obtain ⟨s, hs, hok⟩ := Meter.exists_of_mapM hraw hids
    obtain ⟨-, htest⟩ := rawSplit_ok hok
    refine ⟨s, hs, .inr ?_⟩
    rw [htest, testIndices, List.mem_mergeSort, List.mem_flatMap]
    exact ⟨g, of_decide_eq_true hmem, hig⟩

end folds

/-! ## When the purge is the stated one -/

theorem filter_eq_filter_iff {α : Type} {p q : α → Bool} {l : List α} :
    l.filter p = l.filter q ↔ ∀ a ∈ l, p a = q a := by
  refine ⟨fun h a ha => ?_, List.filter_congr⟩
  have hmem : a ∈ l.filter p ↔ a ∈ l.filter q := by rw [h]
  rw [List.mem_filter, List.mem_filter, and_iff_right ha, and_iff_right ha] at hmem
  exact Bool.eq_iff_iff.mpr hmem

theorem dropEventIndices_eq (indices : List ℕ) :
    dropEventIndices indices dates forbidden =
      indices.filter fun i => dateAt dates i ∉ forbidden := by
  unfold dropEventIndices
  split
  · next h => simp [h]
  · rfl

/-- The forbidden dates are the stated ones, but for the event days and a width of `0`. -/
theorem not_mem_forbidden_iff (hforbidden : expandEventDates eventDates purgeDays = .ok forbidden)
    (i : ℕ) : (dateAt dates i ∉ forbidden ↔ ¬ NearEvent dates eventDates purgeDays i) ↔
      purgeDays ≠ 0 ∨ dateAt dates i ∉ eventDates := by
  rw [not_iff_not, mem_expandEventDates hforbidden, NearEvent]
  rcases lt_trichotomy purgeDays 0 with hneg | rfl | hpos
  · have hnone : ¬ ∃ e ∈ eventDates, |dateAt dates i - e| ≤ purgeDays := by
      rintro ⟨e, -, hle⟩
      exact absurd ((abs_nonneg _).trans hle) hneg.not_ge
    exact iff_of_true (iff_of_false hnone fun h => hnone h.2) (.inl hneg.ne)
  · have hday : (∃ e ∈ eventDates, |dateAt dates i - e| ≤ 0) ↔ dateAt dates i ∈ eventDates := by
      simp only [abs_nonpos_iff, sub_eq_zero]
      exact ⟨fun ⟨e, he, h⟩ => h ▸ he, fun h => ⟨_, h, rfl⟩⟩
    rw [hday]
    simp
  · exact iff_of_true (and_iff_right hpos).symm (.inl hpos.ne')

theorem purgesStated_iff (hforbidden : expandEventDates eventDates purgeDays = .ok forbidden) :
    PurgesStated dates eventDates purgeDays base (base.map (dropBoth dates forbidden)) ↔
      ∀ s ∈ base, ∀ i, i ∈ s.1 ∨ i ∈ s.2 → purgeDays ≠ 0 ∨ dateAt dates i ∉ eventDates := by
  unfold PurgesStated
  rw [List.map_inj_left]
  refine forall₂_congr fun s _ => ?_
  rw [dropBoth, dropEventIndices_eq, dropEventIndices_eq, Prod.mk.injEq, filter_eq_filter_iff,
    filter_eq_filter_iff]
  simp only [decide_eq_decide, not_mem_forbidden_iff hforbidden]
  exact ⟨fun h i hi => hi.elim (h.1 i) (h.2 i), fun h => ⟨fun i hi => h i (.inl hi),
    fun i hi => h i (.inr hi)⟩⟩

/-- Each date is the date of an index of a fold, if there are folds. -/
theorem forall_fold_iff (hbase : cpcvSplits dates nGroups kTest embargoDays [] purgeDays = .ok base)
    (P : Int → Prop) : (∀ s ∈ base, ∀ i, i ∈ s.1 ∨ i ∈ s.2 → P (dateAt dates i)) ↔
      nGroups < kTest ∨ ∀ d ∈ dates, P d := by
  obtain ⟨groups, hgroups, hraw⟩ := exists_rawSplit hbase
  constructor
  · intro h
    refine or_iff_not_imp_left.mpr fun hkn d hd => ?_
    obtain ⟨i, hi, rfl⟩ := List.mem_iff_getElem.mp hd
    obtain ⟨s, hs, hmem⟩ := exists_fold hgroups hraw (not_lt.mp hkn) hi
    rw [← List.getD_eq_getElem dates 0 hi]
    exact h s hs i hmem
  · rintro (hkn | h) s hs i hi
    · obtain ⟨ids, hids, -⟩ := Meter.mem_of_mapM hraw hs
      obtain ⟨hsub, hlen⟩ := Combinations.mem_combinations.mp hids
      have hle := hsub.length_le
      rw [hlen, List.length_range] at hle
      exact absurd hle hkn.not_ge
    · have hlt := lt_of_mem_fold hgroups hraw hs hi
      rw [dateAt, List.getD_eq_getElem dates 0 hlt]
      exact h _ (List.getElem_mem hlt)

/-- The event purge removes the stated neighbourhood, but for a width of `0` on an event day. -/
theorem event_purge_iff
    (hbase : cpcvSplits dates nGroups kTest embargoDays [] purgeDays = .ok base) :
    (∀ splits, cpcvSplits dates nGroups kTest embargoDays eventDates purgeDays = .ok splits →
      (PurgesStated dates eventDates purgeDays base splits ↔
        purgeDays ≠ 0 ∨ nGroups < kTest ∨ ∀ d ∈ dates, d ∉ eventDates)) ∧
    ((∀ e ∈ eventDates, ∀ d, |d - e| ≤ purgeDays → InRange d) →
      ∃ splits, cpcvSplits dates nGroups kTest embargoDays eventDates purgeDays = .ok splits) := by
  constructor
  · intro splits hsplits
    obtain ⟨groups, hgroups, hrest⟩ := of_bind_ok hsplits
    obtain ⟨forbidden, hforbidden, -⟩ := of_bind_ok hrest
    rw [cpcvSplits_eq_map hbase hforbidden] at hsplits
    cases hsplits
    rw [purgesStated_iff hforbidden,
      forall_fold_iff hbase fun d => purgeDays ≠ 0 ∨ d ∉ eventDates]
    by_cases hp : purgeDays = 0
    · simp [hp]
    · simp [hp]
  · intro hrange
    obtain ⟨forbidden, hforbidden⟩ := expandEventDates_ok hrange
    exact ⟨_, cpcvSplits_eq_map hbase hforbidden⟩

/-- Six days in three groups; the event is on the fourth day. -/
theorem event_purge_iff_day : ∃ base splits,
    cpcvSplits [0, 1, 2, 3, 4, 5] 3 1 0 [] 1 = .ok base ∧
    cpcvSplits [0, 1, 2, 3, 4, 5] 3 1 0 [3] 1 = .ok splits ∧
    PurgesStated [0, 1, 2, 3, 4, 5] [3] 1 base splits := by
  have hbase := @cpcvSplits_eq [0, 1, 2, 3, 4, 5] [] [] 3 1 0 1 _ rfl rfl (by decide) (by decide)
  obtain ⟨hiff, hok⟩ := @event_purge_iff _ [3] _ _ _ _ _ hbase
  obtain ⟨splits, hsplits⟩ := hok fun e he d hd => by
    obtain rfl := List.mem_singleton.mp he
    rw [abs_le] at hd
    exact inRange_iff.mpr (by omega)
  exact ⟨_, splits, hbase, hsplits, (hiff splits hsplits).mpr (.inl (by decide))⟩

/-- A width of `0` drops the event day from the folds. -/
theorem event_purge_zero :
    cpcvSplits [19753, 19754] 2 1 0 [] 0 = .ok [([1], [0]), ([0], [1])] ∧
    cpcvSplits [19753, 19754] 2 1 0 [19753] 0 = .ok [([1], []), ([], [1])] ∧
    ¬ PurgesStated [19753, 19754] [19753] 0 [([1], [0]), ([0], [1])] [([1], []), ([], [1])] := by
  have hgroups : buildGroups [19753, 19754] 2 = .ok [[0], [1]] := by decide
  have hnone : expandEventDates [] 0 = .ok [] := by decide
  have hday : expandEventDates [19753] 0 = .ok [19753] := by decide +kernel
  have hsplits : ∀ {eventDates forbidden}, expandEventDates eventDates 0 = .ok forbidden →
      cpcvSplits [19753, 19754] 2 1 0 eventDates 0 =
        .ok ([[0], [1]].map (splitOf [19753, 19754] forbidden 0)) := by
    intro eventDates forbidden h
    rw [cpcvSplits_eq hgroups h (by decide) (by decide)]
    simp [testIndices, Combinations.combinations, List.range_succ]
  refine ⟨(hsplits hnone).trans ?_, (hsplits hday).trans ?_, by decide⟩ <;> decide

end purge

end P300
