import Mathlib.Algebra.Order.Ring.Int
import Mathlib.Data.List.Dedup
import Mathlib.Data.List.GetD
import P300.Calendar
import P300.Lib.Bisect
import P300.Lib.Sorted

/-!
# Walk-forward folds

`walk_forward_folds` and `stitched_oos_indices` of `studies/lib/validation/gates.py`. The windows of
a fold are runs of calendar days and roll by a number of days; the dates, days since the epoch, may
have gaps and may repeat. A date that `datetime` cannot hold ends the loop with an exception.
-/

namespace P300

/-- An entry of the returned list: positions, and the texts of the ends of the windows. -/
structure Fold where
  fitIdx : List ℕ
  oosIdx : List ℕ
  fitStart : String
  fitEnd : String
  oosStart : String
  oosEnd : String
  deriving DecidableEq

/-- `date + timedelta(days=days)` -/
def addDays (date days : Int) : Except String Int :=
  if InRange (date + days) then .ok (date + days) else .error "OverflowError"

/-- `list(range(bisect_left(ords, start), bisect_left(ords, stop)))` -/
def positions (ords : List Int) (start stop : Int) : List ℕ :=
  let first := Bisect.bisectLeft ords start
  List.range' first (Bisect.bisectLeft ords stop - first)

/-- The body of the loop: a fold and the next start, or the end of the loop. -/
def foldsBody (ords : List Int) (last fitDays oosDays stepDays fitStart : Int) :
    Except String (Option (Fold × Int)) := do
  let fitEnd ← addDays fitStart fitDays
  let oosEnd ← addDays fitEnd oosDays
  if fitEnd > last then
    return none
  else
    let fold :=
      ⟨positions ords fitStart fitEnd, positions ords fitEnd oosEnd, dateIso fitStart,
        dateIso fitEnd, dateIso fitEnd, dateIso oosEnd⟩
    let next ← addDays fitStart stepDays
    return some (fold, next)

/-- The loop; folds without positions to score are skipped. -/
def foldsLoop (ords : List Int) (last fitDays oosDays stepDays : Int) :
    ℕ → Int → List Fold → Option (Except String (List Fold))
  | 0, _, _ => none
  | fuel + 1, fitStart, folds =>
    match foldsBody ords last fitDays oosDays stepDays fitStart with
    | .error e => some (.error e)
    | .ok none => some (.ok folds)
    | .ok (some (fold, next)) =>
      foldsLoop ords last fitDays oosDays stepDays fuel next
        (if fold.oosIdx ≠ [] then folds ++ [fold] else folds)

/-- `walk_forward_folds`, with fuel for its loop. -/
def walkForwardFolds (dates : List Int) (fitDays oosDays stepDays : Int) (fuel : ℕ) :
    Option (Except String (List Fold)) :=
  if fitDays ≤ 0 ∨ oosDays ≤ 0 ∨ stepDays ≤ 0 then
    some (.error "fit_days, oos_days and step_days must be positive")
  else
    match dates.head?, dates.getLast? with
    | some first, some last =>
      if ∃ d ∈ dates.zip dates.tail, d.2 < d.1 then some (.error "dates must be sorted ascending")
      else foldsLoop dates last fitDays oosDays stepDays fuel first []
    | _, _ => some (.ok [])

/-- `stitched_oos_indices` -/
def stitchedOosIndices (folds : List Fold) : List ℕ := (folds.flatMap (·.oosIdx)).dedup.mergeSort

/-! ## The folds of a run -/

section run

variable {dates : List Int} {last fitDays oosDays stepDays start : Int} {fuel fuel' : ℕ}
  {folds : List Fold} {res : Except String (List Fold)}

/-- The fold that starts on a day. -/
def foldAt (dates : List Int) (fitDays oosDays start : Int) : Fold :=
  ⟨positions dates start (start + fitDays),
    positions dates (start + fitDays) (start + fitDays + oosDays),
    dateIso start, dateIso (start + fitDays), dateIso (start + fitDays),
      dateIso (start + fitDays + oosDays)⟩

/-- The first `k` folds from a start on, less those that have nothing to score. -/
def foldsFrom (dates : List Int) (fitDays oosDays stepDays start : Int) (k : ℕ) : List Fold :=
  ((List.range k).map fun j : ℕ => foldAt dates fitDays oosDays (start + j * stepDays)).filter
    (·.oosIdx ≠ [])

/-- A date that the loop has to name and that `datetime` cannot hold. -/
def Overflows (last fitDays oosDays stepDays start : Int) : Prop :=
  ∃ d, start ≤ d ∧ d ≤ last + fitDays + oosDays + stepDays ∧ ¬ InRange d

/-- What one round of the loop does. -/
theorem foldsBody_cases (dates : List Int) (hfit : 0 < fitDays) (hoos : 0 < oosDays)
    (hstep : 0 < stepDays) (hstart : start ≤ last + stepDays) :
    (foldsBody dates last fitDays oosDays stepDays start = .error "OverflowError" ∧
      Overflows last fitDays oosDays stepDays start) ∨
    (foldsBody dates last fitDays oosDays stepDays start = .ok none ∧ last < start + fitDays) ∨
    (foldsBody dates last fitDays oosDays stepDays start =
      .ok (some (foldAt dates fitDays oosDays start, start + stepDays)) ∧
        start + fitDays ≤ last) := by
  unfold foldsBody addDays
  by_cases hfitEnd : InRange (start + fitDays)
  · rw [if_pos hfitEnd, ok_bind]
    by_cases hoosEnd : InRange (start + fitDays + oosDays)
    · rw [if_pos hoosEnd, ok_bind]
      by_cases hend : start + fitDays > last
      · exact .inr (.inl ⟨if_pos hend, hend⟩)
      · rw [if_neg hend]
        by_cases hnext : InRange (start + stepDays)
        · rw [if_pos hnext]
          exact .inr (.inr ⟨rfl, not_lt.mp hend⟩)
        · rw [if_neg hnext]
          exact .inl ⟨rfl, _, by omega, by omega, hnext⟩
    · rw [if_neg hoosEnd]
      exact .inl ⟨rfl, _, by omega, by omega, hoosEnd⟩
  · rw [if_neg hfitEnd]
    exact .inl ⟨rfl, _, by omega, by omega, hfitEnd⟩

theorem start_succ (j : ℕ) : start + (j + 1 : ℕ) * stepDays = start + stepDays + j * stepDays := by
  rw [Nat.cast_succ, add_mul, one_mul, add_comm (j * stepDays), ← add_assoc]

theorem foldsFrom_succ (k : ℕ) : foldsFrom dates fitDays oosDays stepDays start (k + 1) =
    (if (foldAt dates fitDays oosDays start).oosIdx ≠ []
      then [foldAt dates fitDays oosDays start] else []) ++
      foldsFrom dates fitDays oosDays stepDays (start + stepDays) k := by
  rw [foldsFrom, foldsFrom, List.range_succ_eq_map, List.map_cons, List.map_map, List.filter_cons]
  simp only [Function.comp_def, Nat.succ_eq_add_one, start_succ, Nat.cast_zero, zero_mul, add_zero,
    decide_eq_true_eq]
  split <;> rfl

/-- With enough fuel the loop ends. -/
theorem foldsLoop_spec (dates : List Int) (hfit : 0 < fitDays) (hoos : 0 < oosDays)
    (hstep : 0 < stepDays) (hstart : start ≤ last + stepDays) (hfuel : (last - start).toNat < fuel)
    (folds : List Fold) :
    (foldsLoop dates last fitDays oosDays stepDays fuel start folds =
      some (.error "OverflowError") ∧
      Overflows last fitDays oosDays stepDays start) ∨
    ∃ k : ℕ, foldsLoop dates last fitDays oosDays stepDays fuel start folds =
        some (.ok (folds ++ foldsFrom dates fitDays oosDays stepDays start k)) ∧
      last < start + k * stepDays + fitDays := by
  induction fuel generalizing start folds with
  | zero => exact absurd hfuel (Nat.not_lt_zero _)
  | succ fuel ih =>
    rw [foldsLoop]
    obtain ⟨hbody, hover⟩ | ⟨hbody, hend⟩ | ⟨hbody, hgo⟩ :=
      foldsBody_cases dates hfit hoos hstep hstart
    · rw [hbody]
      exact .inl ⟨rfl, hover⟩
    · rw [hbody]
      refine .inr ⟨0, ?_, by simpa using hend⟩
      rw [foldsFrom, List.range_zero, List.map_nil, List.filter_nil, List.append_nil]
    · rw [hbody]
      dsimp only
      have hnext : start + stepDays ≤ last + stepDays := by omega
      obtain ⟨hloop, d, hd, hd', hnot⟩ | ⟨k, hloop, hk⟩ := ih hnext (by omega)
        (if (foldAt dates fitDays oosDays start).oosIdx ≠ []
          then folds ++ [foldAt dates fitDays oosDays start]
          else folds)
      · exact .inl ⟨hloop, d, by omega, hd', hnot⟩
      · refine .inr ⟨k + 1, ?_, ?_⟩
        · rw [hloop, foldsFrom_succ, ← List.append_assoc]
          split
          · rfl
          · rw [List.append_nil]
        · rwa [start_succ]

/-- More fuel does not change what a loop returns. -/
theorem foldsLoop_mono (h : foldsLoop dates last fitDays oosDays stepDays fuel start
      folds = some res)
    (hle : fuel ≤ fuel') : foldsLoop dates last fitDays oosDays stepDays fuel' start folds =
      some res := by
  induction fuel generalizing fuel' start folds with
  | zero => cases h
  | succ fuel ih =>
    obtain ⟨fuel', rfl⟩ :=
      Nat.exists_eq_add_of_le' (Nat.le_trans (Nat.succ_le_succ (Nat.zero_le fuel)) hle)
    rw [foldsLoop] at h ⊢
    cases hbody : foldsBody dates last fitDays oosDays stepDays start with
    | error e =>
      rw [hbody] at h
      exact h
    | ok next =>
      rw [hbody] at h
      cases next with
      | none => exact h
      | some next => exact ih h (Nat.le_of_succ_le_succ hle)

end run

/-! ## The windows of a fold -/

/-- The dates from a day up to another one. -/
def window (dates : List Int) (start stop : Int) : List ℕ :=
  (List.range dates.length).filter fun i => start ≤ dateAt dates i ∧ dateAt dates i < stop

section windows

variable {dates : List Int} {fitDays oosDays stepDays start stop : Int} {i k : ℕ}

theorem mem_window : i ∈ window dates start stop ↔
    i < dates.length ∧ start ≤ dateAt dates i ∧ dateAt dates i < stop := by
  rw [window, List.mem_filter, List.mem_range, decide_eq_true_iff]

theorem positions_eq (hdates : dates.Pairwise (· ≤ ·)) :
    positions dates start stop = window dates start stop := by
  have hlt : ∀ {x : Int} {i : ℕ}, i < dates.length →
      (i < Bisect.bisectLeft dates x ↔ dateAt dates i < x) := by
    intro x i hi
    rw [Bisect.lt_bisectLeft_iff hdates hi, dateAt, List.getD_eq_getElem _ _ hi]
  have hle : Bisect.bisectLeft dates stop ≤ dates.length := by
    rw [Bisect.bisectLeft_eq_countP hdates]
    exact List.countP_le_length
  refine Sorted.eq_of_mem_iff List.pairwise_lt_range' (List.pairwise_lt_range.filter _) fun i => ?_
  have hmem : i ∈ positions dates start stop ↔
      Bisect.bisectLeft dates start ≤ i ∧ i < Bisect.bisectLeft dates stop := by
    rw [positions, List.mem_range'_1]
    omega
  refine hmem.trans (Iff.trans ?_ mem_window.symm)
  constructor
  · rintro ⟨hstart, hstop⟩
    have hi := lt_of_lt_of_le hstop hle
    exact ⟨hi, not_lt.mp fun h => hstart.not_gt ((hlt hi).mpr h), (hlt hi).mp hstop⟩
  · rintro ⟨hi, hstart, hstop⟩
    exact ⟨not_lt.mp fun h => hstart.not_gt ((hlt hi).mp h), (hlt hi).mpr hstop⟩

/-- The window of a fold that starts `j` steps on. -/
theorem mem_oosIdx_foldAt (hdates : dates.Pairwise (· ≤ ·)) {j : ℕ} :
    i ∈ (foldAt dates fitDays oosDays (start + j * stepDays)).oosIdx ↔ i < dates.length ∧
      start + j * stepDays + fitDays ≤ dateAt dates i ∧
      dateAt dates i < start + j * stepDays + fitDays + oosDays := by
  change i ∈ positions dates _ _ ↔ _
  rw [positions_eq hdates, mem_window]

theorem mem_stitchedOosIndices {folds : List Fold} :
    i ∈ stitchedOosIndices folds ↔ ∃ f ∈ folds, i ∈ f.oosIdx := by
  rw [stitchedOosIndices, List.mem_mergeSort, List.mem_dedup, List.mem_flatMap]

theorem stitchedOosIndices_pairwise (folds : List Fold) :
    (stitchedOosIndices folds).Pairwise (· < ·) := by
  have htrans : ∀ a b c : ℕ, decide (a ≤ b) = true → decide (b ≤ c) = true →
      decide (a ≤ c) = true :=
    fun a b c hab hbc => decide_eq_true ((of_decide_eq_true hab).trans (of_decide_eq_true hbc))
  have htotal : ∀ a b : ℕ, (decide (a ≤ b) || decide (b ≤ a)) = true := fun a b => by
    rw [← Bool.decide_or]
    exact decide_eq_true (le_total a b)
  have hsorted := List.pairwise_mergeSort htrans htotal (folds.flatMap (·.oosIdx)).dedup
  have hnodup : (stitchedOosIndices folds).Nodup :=
    (List.mergeSort_perm _ _).nodup_iff.mpr (List.nodup_dedup _)
  refine (hsorted.and hnodup).imp fun {a b} h => ?_
  exact lt_of_le_of_ne (of_decide_eq_true h.1) h.2

/-- A date after the first fit window lies in the scored window of a fold, if the folds roll by its
length. -/
theorem exists_mem_oosIdx (hdates : dates.Pairwise (· ≤ ·)) (hoos : 0 < oosDays) {last : Int}
    (hlast : ∀ d ∈ dates, d ≤ last) (hk : last < start + k * oosDays + fitDays)
    (hi : i < dates.length) (hfrom : start + fitDays ≤ dateAt dates i) :
    ∃ f ∈ foldsFrom dates fitDays oosDays oosDays start k, i ∈ f.oosIdx := by
  have hdiv := Int.mul_ediv_self_le (x := dateAt dates i - start - fitDays) hoos.ne'
  have hdiv' := Int.lt_mul_ediv_self_add (x := dateAt dates i - start - fitDays) hoos
  have hnonneg : 0 ≤ dateAt dates i - start - fitDays := by omega
  obtain ⟨j, hj⟩ := Int.eq_ofNat_of_zero_le (Int.ediv_nonneg hnonneg hoos.le)
  rw [hj, mul_comm] at hdiv hdiv'
  have hmem : i ∈ (foldAt dates fitDays oosDays (start + j * oosDays)).oosIdx :=
    (mem_oosIdx_foldAt hdates).mpr ⟨hi, by omega, by omega⟩
  have hjk : j < k := by
    by_contra hkj
    have hmul : (k : Int) * oosDays ≤ j * oosDays :=
      mul_le_mul_of_nonneg_right (Int.ofNat_le.mpr (not_lt.mp hkj)) hoos.le
    have hdate : dateAt dates i ≤ last := by
      rw [dateAt, List.getD_eq_getElem _ _ hi]
      exact hlast _ (List.getElem_mem hi)
    omega
  refine ⟨_, List.mem_filter.mpr ⟨List.mem_map_of_mem (List.mem_range.mpr hjk), ?_⟩, hmem⟩
  exact decide_eq_true (List.ne_nil_of_mem hmem)

/-- Folds that roll by the length of the scored window have no position in common. -/
theorem foldsFrom_disjoint (hdates : dates.Pairwise (· ≤ ·)) (hoos : 0 < oosDays) :
    (foldsFrom dates fitDays oosDays oosDays start k).Pairwise fun f f' =>
      ∀ i ∈ f.oosIdx, i ∉ f'.oosIdx := by
  refine List.Pairwise.filter _ (List.pairwise_map.mpr
    (List.pairwise_lt_range.imp fun {j j'} hlt i hi hi' => ?_))
  rw [mem_oosIdx_foldAt hdates] at hi hi'
  have hmul : ((j : Int) + 1) * oosDays ≤ j' * oosDays :=
    mul_le_mul_of_nonneg_right (by omega) hoos.le
  rw [add_mul, one_mul] at hmul
  omega

end windows

/-! ## The axis -/

/-- What walk-forward folds promise. -/
structure WalkForward (dates : List Int) (fitDays oosDays stepDays : Int)
    (folds : List Fold) : Prop where
  windows : ∀ f ∈ folds, ∃ first ∈ dates.head?, ∃ j : ℕ,
    let start := first + j * stepDays
    f.fitStart = dateIso start ∧ f.fitEnd = dateIso (start + fitDays) ∧
    f.oosStart = dateIso (start + fitDays) ∧ f.oosEnd = dateIso (start + fitDays + oosDays) ∧
    f.fitIdx = window dates start (start + fitDays) ∧
    f.oosIdx = window dates (start + fitDays) (start + fitDays + oosDays)
  precede : ∀ f ∈ folds, ∀ i ∈ f.fitIdx, ∀ j ∈ f.oosIdx, dateAt dates i < dateAt dates j
  stitched : stepDays = oosDays → stitchedOosIndices folds =
    (List.range dates.length).filter fun i =>
      ∀ first ∈ dates.head?, first + fitDays ≤ dateAt dates i
  disjoint : stepDays = oosDays → folds.Pairwise fun f f' => ∀ i ∈ f.oosIdx, i ∉ f'.oosIdx

section axis

variable {dates : List Int} {fitDays oosDays stepDays first last : Int} {k : ℕ}

theorem walkForward_nil : WalkForward [] fitDays oosDays stepDays [] where
  windows _ hf := (List.not_mem_nil hf).elim
  precede _ hf := (List.not_mem_nil hf).elim
  stitched _ := List.mergeSort_nil ..
  disjoint _ := .nil

theorem foldsFrom_walkForward (hdates : dates.Pairwise (· ≤ ·)) (hoos : 0 < oosDays)
    (hfirst : dates.head? = some first) (hlast : ∀ d ∈ dates, d ≤ last)
    (hk : last < first + k * stepDays + fitDays) :
    WalkForward dates fitDays oosDays stepDays
      (foldsFrom dates fitDays oosDays stepDays first k) where
  windows f hf := by
    obtain ⟨j, -, rfl⟩ := List.mem_map.mp (List.mem_filter.mp hf).1
    exact ⟨first, hfirst, j, rfl, rfl, rfl, rfl, positions_eq hdates, positions_eq hdates⟩
  precede f hf i hi j hj := by
    obtain ⟨n, -, rfl⟩ := List.mem_map.mp (List.mem_filter.mp hf).1
    replace hi : i ∈ positions dates _ _ := hi
    rw [positions_eq hdates, mem_window] at hi
    exact hi.2.2.trans_le ((mem_oosIdx_foldAt hdates).mp hj).2.1
  stitched hstep := by
    subst hstep
    refine Sorted.eq_of_mem_iff (stitchedOosIndices_pairwise _)
      (List.pairwise_lt_range.filter _) fun i => ?_
    rw [mem_stitchedOosIndices, List.mem_filter, List.mem_range, decide_eq_true_iff, hfirst]
    constructor
    · rintro ⟨f, hf, hi⟩
      obtain ⟨j, -, rfl⟩ := List.mem_map.mp (List.mem_filter.mp hf).1
      obtain ⟨hlt, hfrom, -⟩ := (mem_oosIdx_foldAt hdates).mp hi
      have hj : 0 ≤ (j : Int) * stepDays := mul_nonneg (Int.natCast_nonneg j) hoos.le
      refine ⟨hlt, fun first' h => ?_⟩
      obtain rfl := Option.some.inj h
      omega
    · rintro ⟨hi, hfrom⟩
      exact exists_mem_oosIdx hdates hoos hlast hk hi (hfrom first rfl)
  disjoint hstep := by
    subst hstep
    exact foldsFrom_disjoint hdates hoos

theorem not_unsorted (hdates : dates.Pairwise (· ≤ ·)) :
    ¬ ∃ d ∈ dates.zip dates.tail, d.2 < d.1 := by
  rintro ⟨d, hd, hlt⟩
  obtain ⟨i, hi, rfl⟩ := List.mem_iff_getElem.mp hd
  rw [List.length_zip, List.length_tail] at hi
  rw [List.getElem_zip, List.getElem_tail] at hlt
  exact hlt.not_ge (List.pairwise_iff_getElem.mp hdates _ _ _ _ (Nat.lt_succ_self i))

/-- Walk-forward folds tile the axis. -/
theorem walk_forward_tiles (hdates : dates.Pairwise (· ≤ ·)) (hfit : 0 < fitDays)
    (hoos : 0 < oosDays) (hstep : 0 < stepDays) :
    ∃ fuel res, (∀ fuel' ≥ fuel, walkForwardFolds dates fitDays oosDays stepDays fuel' = some res) ∧
      ((∃ folds, res = .ok folds ∧ WalkForward dates fitDays oosDays stepDays folds) ∨
        res = .error "OverflowError" ∧ ∃ first ∈ dates.head?, ∃ last ∈ dates.getLast?,
          Overflows last fitDays oosDays stepDays first) := by
  have hdays : ¬ (fitDays ≤ 0 ∨ oosDays ≤ 0 ∨ stepDays ≤ 0) := by omega
  unfold walkForwardFolds
  simp only [if_neg hdays]
  cases hlast : dates.getLast? with
  | none =>
    obtain rfl := List.getLast?_eq_none_iff.mp hlast
    exact ⟨0, _, fun _ _ => rfl, .inl ⟨[], rfl, walkForward_nil⟩⟩
  | some last =>
    cases hfirst : dates.head? with
    | none =>
      obtain rfl := List.head?_eq_none_iff.mp hfirst
      cases hlast
    | some first =>
      have hmax : ∀ d ∈ dates, d ≤ last := by
        obtain ⟨front, rfl⟩ := List.getLast?_eq_some_iff.mp hlast
        intro d hd
        rcases List.mem_append.mp hd with hd | hd
        · exact (List.pairwise_append.mp hdates).2.2 d hd last List.mem_cons_self
        · exact (List.mem_singleton.mp hd).le
      have hstart : first ≤ last + stepDays := by
        have := hmax first (List.mem_of_head? hfirst)
        omega
      simp only [if_neg (not_unsorted hdates)]
      rcases foldsLoop_spec dates hfit hoos hstep hstart (Nat.lt_succ_self (last - first).toNat)
        [] with
        ⟨hloop, hover⟩ | ⟨k, hloop, hk⟩
      · exact ⟨_, _, fun _ hle => foldsLoop_mono hloop hle,
          .inr ⟨rfl, first, rfl, last, rfl, hover⟩⟩
      · exact ⟨_, _, fun _ hle => foldsLoop_mono hloop hle,
          .inl ⟨_, rfl, foldsFrom_walkForward hdates hoos hfirst hmax hk⟩⟩

/-- A repeated date, and a gap as long as a window. -/
theorem walk_forward_tiles_gap :
    (walkForwardFolds [0, 1, 1, 4, 8, 9] 2 3 3 10).map (·.map fun folds => folds.map (·.oosIdx)) =
      some (.ok [[3], [4, 5]]) ∧
    ∃ fuel res, (∀ fuel' ≥ fuel, walkForwardFolds [0, 1, 1, 4, 8, 9] 2 3 3 fuel' = some res) ∧
      ((∃ folds, res = .ok folds ∧ WalkForward [0, 1, 1, 4, 8, 9] 2 3 3 folds) ∨
        res = .error "OverflowError" ∧
          ∃ first ∈ [0, 1, 1, 4, 8, 9].head?, ∃ last ∈ [0, 1, 1, 4, 8, 9].getLast?,
          Overflows last 2 3 3 first) :=
  ⟨by decide +kernel, walk_forward_tiles (by decide) (by decide) (by decide) (by decide)⟩

end axis

end P300
