import P300.Candles
import P300.Lib.Intervals
import Mathlib.Algebra.Order.Ring.Rat
import Mathlib.Data.List.MinMax

/-!
# The stop path

`strategies/support/stop_path.py`: the completed minute candles of an open trade are walked for the
first crossing of its stop levels. The mark up to which they have been walked and the ranges in
which rows were missing or malformed are kept in the trade's notes, and the ranges are walked again.
-/

namespace P300

/-- `_MINUTE_MS` -/
def minuteMs : Int := 60_000

/-- The rows of the ranges. -/
def CandleTable.inRanges (table : CandleTable) (ranges : List (Int × Int)) : List Candle :=
  ranges.flatMap fun r => table.between r.1 r.2

/-- The prices of a well-formed candle. -/
structure Ohlc where
  open_ : ℚ
  high : ℚ
  low : ℚ
  close : ℚ

/-- The prices of a candle that passes every check of the walk. -/
def Candle.valid? (c : Candle) : Option Ohlc := do
  let o ← c.open_
  let h ← c.high
  let l ← c.low
  let cl ← c.close
  if c.openTime % minuteMs ≠ 0 ∨ (o ≤ 0 ∨ h ≤ 0 ∨ l ≤ 0 ∨ cl ≤ 0) ∨
      l > min o cl ∨ h < max o cl ∨ l > h then none
  else some ⟨o, h, l, cl⟩

/-- Each level is (reason, stop price); a price that is not finite is `none`. -/
abbrev Levels := List (String × Option ℚ)

/-- The levels with a positive price. -/
def validLevels (levels : Levels) : List (String × ℚ) :=
  levels.filterMap fun item => item.2.bind fun price =>
    if price > 0 then some (item.1, price) else none

/-- `_hit` -/
def hit (direction : Direction) (levels : Levels) (openPrice high low : ℚ) (at_ : Time)
    (openedAt : Option Time) : Option StopExit :=
  match direction with
  | .long => ((validLevels levels).argmax Prod.snd).bind fun (reason, stop) =>
    if low ≤ stop then
      some ⟨min openPrice stop, if openPrice ≤ stop then openedAt.getD at_ else at_, reason⟩
    else none
  | .short => ((validLevels levels).argmin Prod.snd).bind fun (reason, stop) =>
    if high ≥ stop then
      some ⟨max openPrice stop, if openPrice ≥ stop then openedAt.getD at_ else at_, reason⟩
    else none
  | .other _ => none

/-- What the walk reads of a trade. -/
structure StopTrade where
  actualEntryTime : Time
  direction : Direction
  /-- upper-cased -/
  asset : String

/-- The entry `_stop_path_v1` of a trade's notes. -/
structure Checkpoint where
  throughMs : Int
  gaps : List (Int × Int)
  deriving DecidableEq

inductive StopPathError
  /-- `Unsupported stop direction: {direction!r}` -/
  | unsupportedDirection (direction : String)
  /-- `_TABLES[asset.upper()]` -/
  | keyError (asset : String)
  deriving DecidableEq, Repr

/-- `_merge_ranges` -/
def mergeRanges (ranges : List (Int × Int)) : List (Int × Int) := Intervals.merge minuteMs ranges

section walk

variable (direction : Direction) (levelsAt : Time → Levels)

/-- The crossing in a candle. -/
def Candle.exit? (c : Candle) : Option StopExit :=
  c.valid?.bind fun p => hit direction (levelsAt (c.openTime * 1000)) p.open_ p.high p.low
    ((c.openTime + minuteMs) * 1000) (some (c.openTime * 1000))

/-- The body of the inner loop over the rows, on the expected minute and the gaps so far. A crossing
ends the walk. -/
def walkRow (st : Int × List (Int × Int)) (c : Candle) :
    Except StopExit (Int × List (Int × Int)) :=
  let gaps := if c.openTime > st.1 then st.2 ++ [(st.1, c.openTime - minuteMs)] else st.2
  let expected := c.openTime + minuteMs
  match c.valid? with
  | none => .ok (expected, gaps ++ [(c.openTime, c.openTime)])
  | some _ =>
    match c.exit? direction levelsAt with
    | some result => .error result
    | none => .ok (expected, gaps)

/-- The body of the outer loop over the ranges. -/
def walkRange (table : CandleTable) (gaps : List (Int × Int)) (range : Int × Int) :
    Except StopExit (List (Int × Int)) := do
  let st ← (table.between range.1 range.2).foldlM (walkRow direction levelsAt) (range.1, gaps)
  return if st.1 ≤ range.2 then st.2 ++ [(st.1, range.2)] else st.2

/-- All ranges; the gaps that were found. -/
def walk (table : CandleTable) (ranges : List (Int × Int)) : Except StopExit (List (Int × Int)) :=
  ranges.foldlM (walkRange direction levelsAt table) []

/-- The state after a row without a crossing. -/
def passRow (st : Int × List (Int × Int)) (c : Candle) : Int × List (Int × Int) :=
  (c.openTime + minuteMs,
    (if c.openTime > st.1 then st.2 ++ [(st.1, c.openTime - minuteMs)] else st.2) ++
      if c.valid?.isSome then [] else [(c.openTime, c.openTime)])

/-- The gaps after a range without a crossing. -/
def passRange (table : CandleTable) (gaps : List (Int × Int)) (range : Int × Int) :
    List (Int × Int) :=
  let st := (table.between range.1 range.2).foldl passRow (range.1, gaps)
  if st.1 ≤ range.2 then st.2 ++ [(st.1, range.2)] else st.2

theorem walkRow_eq (st : Int × List (Int × Int)) (c : Candle) :
    walkRow direction levelsAt st c =
      (c.exit? direction levelsAt).elim (.ok (passRow st c)) .error := by
  unfold walkRow passRow Candle.exit?
  cases c.valid? with
  | none => rfl
  | some p =>
    simp only [Option.bind_some, Option.isSome_some, if_true, List.append_nil]
    cases hit direction (levelsAt (c.openTime * 1000)) p.open_ p.high p.low
      ((c.openTime + minuteMs) * 1000) (some (c.openTime * 1000)) <;> rfl

theorem walkRange_eq (table : CandleTable) (gaps : List (Int × Int)) (range : Int × Int) :
    walkRange direction levelsAt table gaps range =
      ((table.between range.1 range.2).findSome? (Candle.exit? direction levelsAt)).elim
        (.ok (passRange table gaps range)) .error := by
  rw [walkRange, foldlM_exit (walkRow_eq direction levelsAt)]
  cases (table.between range.1 range.2).findSome? (Candle.exit? direction levelsAt) <;> rfl

/-- The walk returns the first crossing in its rows; without one it finds gaps. -/
theorem walk_eq (table : CandleTable) (ranges : List (Int × Int)) :
    walk direction levelsAt table ranges =
      ((table.inRanges ranges).findSome? (Candle.exit? direction levelsAt)).elim
        (.ok (ranges.foldl (passRange table) [])) .error := by
  rw [walk, CandleTable.inRanges, foldlM_exit (walkRange_eq direction levelsAt table),
    ← List.head?_filterMap, ← List.head?_filterMap, List.filterMap_flatMap, List.head?_flatMap,
    List.head?_filterMap]
  simp only [List.head?_filterMap]

end walk

/-- One call of `check_stop_path`, with what it reads of the clock and the candles. -/
structure Tick where
  now : Time
  /-- `clock.is_simulated()` -/
  simulated : Bool
  btc1m : CandleTable
  eth1m : CandleTable
  /-- the quote, if it is a finite number -/
  currentPrice : Option ℚ := none
  saveProgress : Bool := true

namespace Tick

variable (t : Tick)

/-- `_TABLES` -/
def table? (asset : String) : Option CandleTable :=
  if asset = "BTC" then some t.btc1m else if asset = "ETH" then some t.eth1m else none

/-- The last minute that is complete by the clock. -/
def clockUpper : Int := (t.now.tdiv 1000 / minuteMs - 1) * minuteMs

end Tick

/-- The first minute that opens at or after the entry. -/
def StopTrade.firstMs (trade : StopTrade) : Int :=
  let entryMs := -(-trade.actualEntryTime / 1000)
  (entryMs + minuteMs - 1) / minuteMs * minuteMs

theorem StopTrade.firstMs_spec (trade : StopTrade) : trade.firstMs % minuteMs = 0 ∧
    trade.actualEntryTime ≤ trade.firstMs * 1000 ∧
    trade.firstMs * 1000 < trade.actualEntryTime + minuteMs * 1000 := by
  have key : ∀ entry : Int, (-(-entry / 1000) + 60_000 - 1) / 60_000 * 60_000 % 60_000 = 0 ∧
      entry ≤ (-(-entry / 1000) + 60_000 - 1) / 60_000 * 60_000 * 1000 ∧
      (-(-entry / 1000) + 60_000 - 1) / 60_000 * 60_000 * 1000 < entry + 60_000 * 1000 := by
    intro entry
    omega
  exact key trade.actualEntryTime

/-- What one call walks. -/
structure Plan where
  /-- the mark it starts from -/
  through : Int
  /-- the saved gaps, clipped to the minutes that are complete by the clock -/
  pending : List (Int × Int)
  /-- the last minute that it may walk -/
  upper : Int

namespace Plan

/-- A checkpoint from the clock's future is dropped; in live mode the newest stored row and what
follows it is withheld. -/
def make (trade : StopTrade) (t : Tick) (table : CandleTable) (state : Option Checkpoint) : Plan :=
  let first := trade.firstMs
  let saved := (state.map (·.throughMs)).getD (first - minuteMs)
  let gaps := if saved > t.clockUpper then [] else (state.map (·.gaps)).getD []
  { through := if saved > t.clockUpper then first - minuteMs else saved
    pending := gaps.map fun gap => (max first gap.1, min t.clockUpper gap.2)
    upper :=
      if t.simulated = true then t.clockUpper
      else match table.latest with
        | none => first - minuteMs
        | some latest => min t.clockUpper (latest - minuteMs) }

variable (p : Plan) (trade : StopTrade)

/-- The ranges that are walked: the saved gaps and the stretch after the mark. -/
def ranges : List (Int × Int) :=
  mergeRanges (p.pending.map (fun gap => (gap.1, min gap.2 p.upper)) ++
    [(max trade.firstMs (p.through + minuteMs), p.upper)])

/-- The saved gaps outside the current live finality boundary. -/
def preserved : List (Int × Int) :=
  (p.pending.filter fun gap => gap.2 > p.upper).map fun gap =>
    (max gap.1 (p.upper + minuteMs), gap.2)

/-- The checkpoint after a walk without a crossing that found `gaps`. -/
def save (gaps : List (Int × Int)) : Checkpoint :=
  ⟨max p.through p.upper, mergeRanges (gaps ++ p.preserved)⟩

end Plan

/-- The quote against the levels of now. -/
def quoteHit (trade : StopTrade) (levelsAt : Time → Levels) (t : Tick) : Option StopExit :=
  t.currentPrice.bind fun price => if price > 0 then
    hit trade.direction (levelsAt t.now) price price price t.now none else none

/-- `check_stop_path` on the candles of the trade's asset: the exit, and the trade's checkpoint
after the call. -/
def checkCandles (trade : StopTrade) (levelsAt : Time → Levels) (t : Tick) (table : CandleTable)
    (state : Option Checkpoint) : Option StopExit × Option Checkpoint :=
  let p := Plan.make trade t table state
  match walk trade.direction levelsAt table (p.ranges trade) with
  | .error result => (some result, state)
  | .ok gaps =>
    match quoteHit trade levelsAt t with
    | some result => (some result, state)
    | none =>
      if p.ranges trade ≠ [] ∧ t.saveProgress = true then (none, some (p.save gaps))
      else (none, state)

/-- `check_stop_path` -/
def checkStopPath (trade : StopTrade) (levelsAt : Time → Levels) (t : Tick)
    (state : Option Checkpoint) : Except StopPathError (Option StopExit × Option Checkpoint) :=
  match trade.direction with
  | .other text => .error (.unsupportedDirection text)
  | _ =>
    if trade.actualEntryTime > t.now then .ok (none, state)
    else match t.table? trade.asset with
      | none => .error (.keyError trade.asset)
      | some table => .ok (checkCandles trade levelsAt t table state)

theorem checkStopPath_eq {trade : StopTrade} {t : Tick} {table : CandleTable}
    (hd : trade.direction.Perp) (hnow : trade.actualEntryTime ≤ t.now)
    (ht : t.table? trade.asset = some table) (levelsAt : Time → Levels)
    (state : Option Checkpoint) : checkStopPath trade levelsAt t state =
      .ok (checkCandles trade levelsAt t table state) := by
  unfold checkStopPath
  rcases hd with h | h
  · rw [h, ht]
    exact if_neg hnow.not_gt
  · rw [h, ht]
    exact if_neg hnow.not_gt

/-- A call of `check_stop_path` refuses, comes before the entry, or reads the candles. -/
theorem checkStopPath_cases (trade : StopTrade) (levelsAt : Time → Levels) (t : Tick) :
    (∃ e, ∀ state, checkStopPath trade levelsAt t state = .error e) ∨
    (∀ state, checkStopPath trade levelsAt t state = .ok (none, state)) ∨
    trade.direction.Perp ∧ trade.actualEntryTime ≤ t.now ∧
      ∃ table, t.table? trade.asset = some table ∧ ∀ state,
        checkStopPath trade levelsAt t state = .ok (checkCandles trade levelsAt t table state) := by
  by_cases hd : trade.direction.Perp
  · by_cases hnow : trade.actualEntryTime ≤ t.now
    · cases ht : t.table? trade.asset with
      | some table => exact .inr (.inr ⟨hd, hnow, table, rfl, checkStopPath_eq hd hnow ht levelsAt⟩)
      | none =>
        refine .inl ⟨.keyError trade.asset, fun state => ?_⟩
        unfold checkStopPath
        rcases hd with h | h
        · rw [h, ht]
          exact if_neg hnow.not_gt
        · rw [h, ht]
          exact if_neg hnow.not_gt
    · refine .inr (.inl fun state => ?_)
      unfold checkStopPath
      rcases hd with h | h
      · rw [h]
        exact if_pos (not_le.mp hnow)
      · rw [h]
        exact if_pos (not_le.mp hnow)
  · cases h : trade.direction with
    | other text => exact .inl ⟨.unsupportedDirection text, fun _ => by rw [checkStopPath, h]⟩
    | long => exact absurd (.inl h) hd
    | short => exact absurd (.inr h) hd

section quiet

variable {trade : StopTrade} {levelsAt : Time → Levels} {t : Tick} {table : CandleTable}
  {state : Option Checkpoint}

theorem checkCandles_of_some {e : StopExit}
    (h : (table.inRanges ((Plan.make trade t table state).ranges trade)).findSome?
      (Candle.exit? trade.direction levelsAt) = some e) :
    checkCandles trade levelsAt t table state = (some e, state) := by
  simp only [checkCandles, walk_eq, h, Option.elim_some]

/-- Without a quote and a crossing, a call that walks anything saves its progress. -/
theorem checkCandles_of_none (ht : t.currentPrice = none) (hsave : t.saveProgress = true)
    (h : (table.inRanges ((Plan.make trade t table state).ranges trade)).findSome?
      (Candle.exit? trade.direction levelsAt) = none) :
    checkCandles trade levelsAt t table state =
      (none, if (Plan.make trade t table state).ranges trade ≠ [] then
        some ((Plan.make trade t table state).save
          (((Plan.make trade t table state).ranges trade).foldl (passRange table) []))
        else state) := by
  have hq : quoteHit trade levelsAt t = none := by rw [quoteHit, ht, Option.bind_none]
  simp only [checkCandles, walk_eq, h, Option.elim_none, hq, hsave, and_true]
  exact (apply_ite (Prod.mk none) ..).symm

end quiet

end P300
