import Mathlib.Algebra.BigOperators.Group.List.Defs
import Mathlib.Algebra.Order.Ring.Rat
import Mathlib.Data.List.ReduceOption
import Mathlib.Data.List.Sort
import Mathlib.Data.Rat.Floor
import Mathlib.Tactic.Linarith
import P300.Basic
import P300.Lib.Causal
import P300.Lib.Dict

/-!
# The R4 gate

`gate.compute_gate_map` and its live counterpart `jplus_inputs._gate_for_today`: yesterday's
realised volatility against its own trailing distribution. `log` and `sqrt` are parameters, on which
nothing is asked; a missing value (`nan` in the source) is `none`.
-/

namespace P300

/-- `l[i]` -/
def index {α : Type} (l : List α) (i : ℕ) : Except String α := l[i]?.elim (.error "IndexError") .ok

section Index

variable {α : Type} {l l' : List α} {i : ℕ}

theorem index_eq_ok {a : α} (h : index l i = .ok a) : l[i]? = some a := by
  rw [index] at h
  cases hget : l[i]? with
  | none =>
    rw [hget] at h
    cases h
  | some b =>
    rw [hget] at h
    cases h
    rfl

theorem index_of_some {a : α} (h : l[i]? = some a) : index l i = .ok a := by
  rw [index, h]
  rfl

theorem index_ok (h : i < l.length) : ∃ a, l[i]? = some a ∧ index l i = .ok a :=
  ⟨l[i], List.getElem?_eq_getElem h, index_of_some (List.getElem?_eq_getElem h)⟩

theorem index_congr (h : l[i]? = l'[i]?) : index l i = index l' i := by rw [index, h, index]

end Index

def volWindow : ℕ := 30

def volRankWindow : ℕ := 365

def volRankThreshold : ℚ := 3 / 4

section Gate

variable (log sqrt : ℚ → ℚ)

/-- The daily log returns; 0 at the first day and next to a close that is not positive. -/
def dailyLogReturns (bc : List ℚ) : List ℚ :=
  0 :: bc.zipWith (fun prev cur => if 0 < prev ∧ 0 < cur then log (cur / prev) else 0) bc.tail

/-- The annualised volatility of the last `window` returns. -/
def windowVol (window : ℕ) (returns : List ℚ) : Option ℚ :=
  if returns.length < window then none
  else
    let chunk := returns.drop (returns.length - window)
    let m := chunk.sum / window
    let var := (chunk.map fun r => (r - m) ^ 2).sum / (window - 1 : ℚ)
    some (sqrt var * sqrt 365)

/-- `gate._rolling_vol_annualized` -/
def rollingVolAnnualized (returns : List ℚ) (window : ℕ) : List (Option ℚ) :=
  (List.range returns.length).map fun i => windowVol sqrt window (returns.take (i + 1))

/-- The trailing distribution: `vol_series[rank_start:prev_i + 1]` without `nan`. -/
def volHist (volSeries : List (Option ℚ)) (prevI : ℕ) : List ℚ :=
  let rankStart := max (volWindow - 1) (prevI + 1 - volRankWindow)
  ((volSeries.take (prevI + 1)).drop rankStart).reduceOption

/-- A volatility against its distribution. -/
def volFires (hist : List ℚ) (curVol : ℚ) : Except String Bool :=
  if hist.length < 30 then .ok false
  else do
    let histSorted := hist.insertionSort (· ≤ ·)
    let threshold ← index histSorted ⌊histSorted.length * volRankThreshold⌋₊
    return decide (threshold ≤ curVol)

/-- The verdict from the volatilities up to `prevI`, the lines that both functions share. -/
def volRank (volSeries : List (Option ℚ)) (prevI : ℕ) : Except String Bool := do
  let curVol ← index volSeries prevI
  curVol.elim (.ok false) (volFires (volHist volSeries prevI))

/-- The verdict of `compute_gate_map` at place `i`. -/
def gateAt (volSeries : List (Option ℚ)) (i : ℕ) : Except String Bool :=
  if i < 1 then .ok false
  else
    let prevI := i - 1
    if volWindow - 1 ≤ prevI then volRank volSeries prevI else .ok false

/-- `gate.compute_gate_map` -/
def computeGateMap (dates : List Int) (bc : List ℚ) : Except String (Dict Int Bool) :=
  let volSeries := rollingVolAnnualized sqrt (dailyLogReturns log bc) volWindow
  Dict.fill Prod.fst (fun d => gateAt volSeries d.2) .empty dates.zipIdx

/-- `jplus_inputs._gate_for_today` -/
def gateForToday (bc : List ℚ) : Except String Bool :=
  if bc.length < volWindow + 1 then .ok false
  else
    let volSeries := rollingVolAnnualized sqrt (dailyLogReturns log bc) volWindow
    let prevI := bc.length - 1
    if prevI < volWindow - 1 then .ok false else volRank volSeries prevI

end Gate

/-! ## The gate of a day reads no later close -/

section Causal

variable {log sqrt : ℚ → ℚ}

theorem length_dailyLogReturns {bc : List ℚ} (h : 0 < bc.length) :
    (dailyLogReturns log bc).length = bc.length := by
  rw [dailyLogReturns, List.length_cons, List.length_zipWith, List.length_tail]
  omega

theorem causal_dailyLogReturns : Causal (dailyLogReturns log) :=
  (Causal.adjacent _).cons 0

theorem length_rollingVolAnnualized (returns : List ℚ) (window : ℕ) :
    (rollingVolAnnualized sqrt returns window).length = returns.length := by
  rw [rollingVolAnnualized, List.length_map, List.length_range]

/-- The volatilities of a series of closes. -/
def volSeriesOf (log sqrt : ℚ → ℚ) (bc : List ℚ) : List (Option ℚ) :=
  rollingVolAnnualized sqrt (dailyLogReturns log bc) volWindow

theorem causal_volSeriesOf : Causal (volSeriesOf log sqrt) :=
  (Causal.ofTake (windowVol sqrt volWindow)).comp causal_dailyLogReturns

theorem length_volSeriesOf {bc : List ℚ} (h : 0 < bc.length) :
    (volSeriesOf log sqrt bc).length = bc.length := by
  rw [volSeriesOf, length_rollingVolAnnualized, length_dailyLogReturns h]

theorem volRank_congr {v v' : List (Option ℚ)} {prevI : ℕ}
    (h : v.take (prevI + 1) = v'.take (prevI + 1)) : volRank v prevI = volRank v' prevI := by
  have hi : v[prevI]? = v'[prevI]? := by
    have hlast := congrArg (·[prevI]?) h
    simpa [List.getElem?_take] using hlast
  have hhist : volHist v prevI = volHist v' prevI := by rw [volHist, h, volHist]
  rw [volRank, volRank, index_congr hi, hhist]

/-- The verdict of a place depends on the closes before it only. -/
theorem gateAt_congr {bc bc' : List ℚ} {i : ℕ} (h : bc.take i = bc'.take i) (hi : i ≤ bc.length)
    (hi' : i ≤ bc'.length) :
    gateAt (volSeriesOf log sqrt bc) i = gateAt (volSeriesOf log sqrt bc') i := by
  rcases Nat.eq_zero_or_pos i with rfl | hpos
  · rw [gateAt, gateAt, if_pos Nat.zero_lt_one, if_pos Nat.zero_lt_one]
  have htake : ∀ {bc : List ℚ}, i ≤ bc.length → (volSeriesOf log sqrt bc).take i =
      volSeriesOf log sqrt (bc.take i) := by
    intro bc hle
    have hlen : (bc.take i).length = i := List.length_take_of_le hle
    have hprefix : (volSeriesOf log sqrt (bc.take i ++ bc.drop i)).take
        (volSeriesOf log sqrt (bc.take i)).length = volSeriesOf log sqrt (bc.take i) :=
      causal_volSeriesOf.take _ _
    rwa [List.take_append_drop, length_volSeriesOf (by omega), hlen] at hprefix
  have hrank : volRank (volSeriesOf log sqrt bc) (i - 1) =
      volRank (volSeriesOf log sqrt bc') (i - 1) := by
    refine volRank_congr ?_
    rw [Nat.sub_add_cancel hpos, htake hi, htake hi', h]
  simp only [gateAt, hrank]

theorem volFires_ok (hist : List ℚ) (curVol : ℚ) : ∃ fired, volFires hist curVol = .ok fired := by
  rw [volFires]
  split
  · exact ⟨false, rfl⟩
  · next hlen =>
    have hpos : (0 : ℚ) < (hist.insertionSort (· ≤ ·)).length := by
      rw [List.length_insertionSort]
      exact_mod_cast (by omega : 0 < hist.length)
    have hindex : ⌊((hist.insertionSort (· ≤ ·)).length : ℚ) * volRankThreshold⌋₊ <
        (hist.insertionSort (· ≤ ·)).length := by
      rw [Nat.floor_lt (mul_nonneg hpos.le (by decide +kernel)), volRankThreshold]
      linarith
    obtain ⟨threshold, _, hthreshold⟩ := index_ok hindex
    dsimp only
    rw [hthreshold, ok_bind]
    exact ⟨_, rfl⟩

theorem volRank_ok {v : List (Option ℚ)} {prevI : ℕ} (h : prevI < v.length) :
    ∃ fired, volRank v prevI = .ok fired := by
  obtain ⟨curVol, _, hcur⟩ := index_ok h
  rw [volRank, hcur, ok_bind]
  cases curVol with
  | none => exact ⟨false, Option.elim_none ..⟩
  | some curVol =>
    rw [Option.elim_some]
    exact volFires_ok _ curVol

/-- Too few volatilities for a distribution. -/
theorem volRank_of_short {v : List (Option ℚ)} {prevI : ℕ} (h : prevI < v.length)
    (hshort : prevI + 1 < volWindow - 1 + 30) : volRank v prevI = .ok false := by
  have hhist : (volHist v prevI).length < 30 := by
    have hle := List.reduceOption_length_le
      ((v.take (prevI + 1)).drop (max (volWindow - 1) (prevI + 1 - volRankWindow)))
    rw [List.length_drop, List.length_take] at hle
    rw [volHist]
    omega
  obtain ⟨curVol, _, hcur⟩ := index_ok h
  rw [volRank, hcur, ok_bind]
  cases curVol with
  | none => exact Option.elim_none ..
  | some curVol => rw [Option.elim_some, volFires, if_pos hhist]

theorem gateAt_ok {v : List (Option ℚ)} {i : ℕ} (h : i ≤ v.length) :
    ∃ fired, gateAt v i = .ok fired := by
  rw [gateAt]
  split
  · exact ⟨false, rfl⟩
  · dsimp only
    split
    · exact volRank_ok (by omega)
    · exact ⟨false, rfl⟩

theorem computeGateMap_ok {dates : List Int} {bc : List ℚ} (h : dates.length = bc.length) :
    ∃ gates, computeGateMap log sqrt dates bc = .ok gates := by
  refine Dict.fill_ok (fun d hd => gateAt_ok ?_) _
  obtain ⟨-, hlt, -⟩ := List.mem_zipIdx hd
  change d.2 ≤ (volSeriesOf log sqrt bc).length
  rw [length_volSeriesOf (by omega)]
  omega

/-- The verdict of a day in the map. -/
theorem get?_computeGateMap {dates : List Int} {bc : List ℚ} {gates : Dict Int Bool}
    (hdates : dates.Nodup) (h : computeGateMap log sqrt dates bc = .ok gates) {i : ℕ} {date : Int}
    (hi : dates[i]? = some date) :
    ∃ fired, gateAt (volSeriesOf log sqrt bc) i = .ok fired ∧ gates.get? date = some fired := by
  have hmem : (date, i) ∈ dates.zipIdx := List.mem_zipIdx_iff_getElem?.mpr hi
  exact Dict.get?_fill (by rwa [List.zipIdx_map_fst]) hmem h

/-- Today's verdict is the map's for the day after the closes. -/
theorem gateForToday_eq (bc : List ℚ) :
    gateForToday log sqrt bc = gateAt (volSeriesOf log sqrt bc) bc.length := by
  rcases Nat.eq_zero_or_pos bc.length with hnone | hpos
  · rw [gateForToday, gateAt, if_pos (by omega), if_pos (by omega)]
  have hday : gateAt (volSeriesOf log sqrt bc) bc.length =
      if volWindow - 1 ≤ bc.length - 1 then volRank (volSeriesOf log sqrt bc) (bc.length - 1)
      else .ok false := by
    rw [gateAt, if_neg (by omega)]
  rw [hday, gateForToday]
  by_cases hlen : bc.length < volWindow + 1
  · -- a window of closes has one volatility
    have hshort : volRank (volSeriesOf log sqrt bc) (bc.length - 1) = .ok false :=
      volRank_of_short (by rw [length_volSeriesOf hpos]; omega) (by omega)
    rw [if_pos hlen, hshort, ite_self]
  · have hwindow : volWindow - 1 ≤ bc.length - 1 := by omega
    rw [if_neg hlen, if_pos hwindow]
    exact if_neg (not_lt.mpr hwindow)

end Causal

end P300
