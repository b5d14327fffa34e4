import Mathlib.Algebra.BigOperators.Group.List.Defs
import Mathlib.Algebra.Order.Field.Rat
import Mathlib.Algebra.Order.Group.Abs
import Mathlib.Data.List.ReduceOption
import P300.Basic
import P300.Lib.Causal

/-!
# Indicators of daily candles

`strategies/support/indicators.py`: Wilder's average true range and average directional index. A
value of the warm-up (`nan` in the source) is `none`.
-/

namespace P300

/-- What is read of a candle of `_load_btc_daily_candles`. -/
structure DailyCandle where
  /-- the date; the source compares its ISO text -/
  dt : Int
  high : ℚ
  low : ℚ
  close : ℚ
  deriving DecidableEq

/-- `tr[i]`, with the candle before. -/
def trueRange (prev c : DailyCandle) : ℚ :=
  max (max (c.high - c.low) |c.high - prev.close|) |c.low - prev.close|

/-- `tr[1:]` -/
def trueRanges (candles : List DailyCandle) : List ℚ := candles.zipWith trueRange candles.tail

/-- `(out[i - 1] * (period - 1) + x) / period` -/
def wilder (period : ℕ) (prev x : ℚ) : ℚ := (prev * (period - 1) + x) / period

/-- The values of `indicators.atr` for a positive period. -/
def atr (candles : List DailyCandle) (period : ℕ) : List (Option ℚ) :=
  if candles.length < period + 1 then List.replicate candles.length none
  else
    let tr := trueRanges candles
    let seed := (tr.take period).sum / period
    List.replicate period none ++ (List.scanl (wilder period) seed (tr.drop period)).map some

theorem length_trueRanges (candles : List DailyCandle) :
    (trueRanges candles).length = candles.length - 1 := by
  rw [trueRanges, List.length_zipWith, List.length_tail]
  omega

theorem causal_trueRanges : Causal trueRanges := Causal.adjacent trueRange

/-- From the second candle on, the range is a smoothing of the true ranges. -/
theorem atr_cons {period : ℕ} (hp : 0 < period) (c : DailyCandle) (candles : List DailyCandle) :
    atr (c :: candles) period = none :: Causal.seeded period
      (fun window : List ℚ => window.sum / (period : ℚ)) (wilder period)
      (trueRanges (c :: candles)) := by
  have hlen : (trueRanges (c :: candles)).length = candles.length := length_trueRanges _
  rw [atr, Causal.seeded, hlen, List.length_cons]
  by_cases h : candles.length < period
  · rw [if_pos (Nat.succ_lt_succ h), if_pos h]
    rfl
  · rw [if_neg (fun h' => h (Nat.lt_of_succ_lt_succ h')), if_neg h]
    obtain ⟨n, rfl⟩ : ∃ n, period = n + 1 := ⟨period - 1, by omega⟩
    rfl

theorem length_atr {period : ℕ} (hp : 0 < period) (candles : List DailyCandle) :
    (atr candles period).length = candles.length := by
  cases candles with
  | nil => rfl
  | cons c candles =>
    rw [atr_cons hp, List.length_cons, Causal.length_seeded hp, length_trueRanges]
    rfl

theorem causal_atr {period : ℕ} (hp : 0 < period) : Causal fun candles => atr candles period := by
  intro candles added
  cases candles with
  | nil => exact List.nil_prefix
  | cons c candles =>
    change atr (c :: candles) period <+: atr (c :: (candles ++ added)) period
    rw [atr_cons hp, atr_cons hp]
    exact (List.prefix_cons_inj none).mpr
      (((Causal.seeded_causal hp _ _).comp causal_trueRanges) (c :: candles) added)

/-! ## The average directional index -/

/-- `tr[i]`, `plus_dm[i]` and `minus_dm[i]`, or their smoothed sums. -/
structure Movement where
  tr : ℚ
  plusDM : ℚ
  minusDM : ℚ

/-- The movement from the candle before. -/
def movement (prev c : DailyCandle) : Movement :=
  let up := c.high - prev.high
  let down := prev.low - c.low
  ⟨trueRange prev c, if up > down ∧ up > 0 then up else 0, if down > up ∧ down > 0 then down else 0⟩

/-- The sums at index `period`. -/
def Movement.sum (window : List Movement) : Movement :=
  ⟨(window.map (·.tr)).sum, (window.map (·.plusDM)).sum, (window.map (·.minusDM)).sum⟩

/-- `smooth - smooth / period + raw`, three times. -/
def Movement.smooth (period : ℕ) (prev raw : Movement) : Movement :=
  ⟨prev.tr - prev.tr / period + raw.tr, prev.plusDM - prev.plusDM / period + raw.plusDM,
    prev.minusDM - prev.minusDM / period + raw.minusDM⟩

/-- `dx[i]` of the smoothed sums. -/
def Movement.dx (s : Movement) : Option ℚ :=
  if s.tr > 0 then
    let pdi := 100 * s.plusDM / s.tr
    let mdi := 100 * s.minusDM / s.tr
    let denom := pdi + mdi
    some (if denom > 0 then 100 * |pdi - mdi| / denom else 0)
  else none

/-- `dx[period + 1:]`, if there are so many candles. -/
def dxSeries (candles : List DailyCandle) (period : ℕ) : List (Option ℚ) :=
  let raw := candles.zipWith movement candles.tail
  (List.scanl (Movement.smooth period) (Movement.sum (raw.take period)) (raw.drop period)).tail.map
    Movement.dx

/-- `out[i]`: nothing is written without `dx[i]`, and `nan` stays. -/
def adxStep (period : ℕ) (prev dx : Option ℚ) : Option ℚ := do
  return wilder period (← prev) (← dx)

/-- The values of `indicators.adx` for a positive period. -/
def adx (candles : List DailyCandle) (period : ℕ) : List (Option ℚ) :=
  if candles.length < period * 2 + 1 then List.replicate candles.length none
  else
    let dx := dxSeries candles period
    let window := (dx.take period).reduceOption
    let seed := if window = [] then none else some (window.sum / window.length)
    List.replicate (period * 2) none ++ List.scanl (adxStep period) seed (dx.drop period)

theorem length_dxSeries (candles : List DailyCandle) (period : ℕ) :
    (dxSeries candles period).length = candles.length - 1 - period := by
  rw [dxSeries, List.length_map, List.length_tail, List.length_scanl, List.length_drop,
    List.length_zipWith, List.length_tail]
  omega

theorem length_adx (candles : List DailyCandle) (period : ℕ) :
    (adx candles period).length = candles.length := by
  rw [adx]
  split
  · exact List.length_replicate
  · rw [List.length_append, List.length_replicate, List.length_scanl, List.length_drop,
      length_dxSeries]
    omega

theorem dxSeries_append {candles : List DailyCandle} {period : ℕ} (h : period < candles.length)
    (added : List DailyCandle) : dxSeries candles period <+: dxSeries
      (candles ++ added) period := by
  obtain ⟨more, hmore⟩ : candles.zipWith movement candles.tail <+:
    (candles ++ added).zipWith movement (candles ++ added).tail :=
      Causal.adjacent movement candles added
  have hlen : period ≤ (candles.zipWith movement candles.tail).length := by
    rw [List.length_zipWith, List.length_tail]
    omega
  rw [dxSeries, dxSeries, ← hmore, List.take_append_of_le_length hlen,
    List.drop_append_of_le_length hlen]
  rw [List.scanl_append, List.tail_append_of_ne_nil (by simp), List.map_append]
  exact List.prefix_append ..

/-- With more candles, the values before stay. -/
theorem causal_adx (period : ℕ) : Causal fun candles => adx candles period := by
  intro candles added
  change adx candles period <+: adx (candles ++ added) period
  by_cases hlt : candles.length < period * 2 + 1
  · rw [adx, if_pos hlt, adx]
    split
    · rw [List.length_append, List.replicate_add]
      exact List.prefix_append ..
    · exact Causal.replicate_prefix (Nat.le_of_lt_succ hlt) none _
  · have hlt' : ¬ (candles ++ added).length < period * 2 + 1 := by rw [List.length_append]; omega
    obtain ⟨more, hmore⟩ := dxSeries_append (by omega : period < candles.length) added
    have hlen : period ≤ (dxSeries candles period).length := by rw [length_dxSeries]; omega
    rw [adx, if_neg hlt, adx, if_neg hlt']
    dsimp only
    rw [← hmore, List.take_append_of_le_length hlen, List.drop_append_of_le_length hlen]
    exact (List.prefix_append_right_inj _).mpr (Causal.scanl _ _ _ more)

end P300
