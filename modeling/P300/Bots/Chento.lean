import Mathlib.Algebra.Order.Ring.Rat
import P300.Basic
import P300.Lib.Dict

/-!
# The position sweep of the chento bot

`chento_v3/strategy`: each tick of the bot walks the 15-minute bars that closed since the last one
over its open trades, and the state of a position is kept in the notes of its trade. `math.py` says
what a bar does to a position, `signal.py` which bars are walked and what is written back.
-/

namespace P300

/-- `strategy/config.py` -/
structure ChentoConfig where
  costBpRt : ℚ := 10
  ladderEnabled : Bool := false
  ladderAdvTriggerR : ℚ := 3 / 10
  ladderT1SizeFrac : ℚ := 1 / 2
  ladderPostStopR : ℚ := 3 / 2

/-- What is read of a bar. -/
structure ChentoBar where
  high : ℚ
  low : ℚ
  close : ℚ
  deriving DecidableEq

/-! ## One bar -/

/-- The state of `math.evaluate_position_step`. A sweep over a risk of 0 raises before it walks. -/
structure PositionState where
  entryPrice : ℚ
  risk : ℚ
  stopPrice : ℚ
  targetPrice : ℚ
  ladderAdded : Bool := false
  ladderEntry : Option ℚ := none
  ladderSizeFrac : Option ℚ := none
  risk_ne : risk ≠ 0

inductive StepAction
  | stopHit (exitPrice rOutcome : ℚ)
  | targetHit (exitPrice rOutcome : ℚ)
  | ladderFired (ladderEntry newStop : ℚ)
  | nothing

/-- The last part of `evaluate_position_step`. -/
def ladderStep (cfg : ChentoConfig) (advR ladderEntry newStop : ℚ) (state : PositionState) :
    StepAction × PositionState :=
  if cfg.ladderEnabled ∧ ¬ state.ladderAdded ∧ advR ≥ cfg.ladderAdvTriggerR then
    (.ladderFired ladderEntry newStop, { state with
      ladderAdded := true
      ladderEntry := some ladderEntry
      ladderSizeFrac := some (state.ladderSizeFrac.getD cfg.ladderT1SizeFrac)
      stopPrice := newStop })
  else (.nothing, state)

/-- `evaluate_position_step` -/
def evaluatePositionStep (cfg : ChentoConfig) (direction : Direction) (costR : ℚ) (bar : ChentoBar)
    (state : PositionState) : StepAction × PositionState :=
  let entry := state.entryPrice
  let risk := state.risk
  let stop := state.stopPrice
  let target := state.targetPrice
  if direction = .long then
    if bar.low ≤ stop then (.stopHit stop ((stop - entry) / risk - costR), state)
    else if bar.high ≥ target then (.targetHit target ((target - entry) / risk - costR), state)
    else ladderStep cfg ((entry - bar.low) / risk) (entry - risk * cfg.ladderAdvTriggerR)
      (entry - risk * cfg.ladderPostStopR) state
  else
    if bar.high ≥ stop then (.stopHit stop ((entry - stop) / risk - costR), state)
    else if bar.low ≤ target then (.targetHit target ((entry - target) / risk - costR), state)
    else ladderStep cfg ((bar.high - entry) / risk) (entry + risk * cfg.ladderAdvTriggerR)
      (entry + risk * cfg.ladderPostStopR) state

/-! ## Bars -/

/-- 15 minutes. -/
def barUs : Time := 900_000_000

/-- `_just_closed_15m_ts` -/
def justClosed15mTs (now : Time) : Time := (now - barUs) / barUs * barUs

/-- `_iter_closed_bars` -/
def iterClosedBars (afterTs throughTs : Time) : List Time :=
  (List.range ((throughTs - afterTs) / barUs).toNat).map fun (k : ℕ) =>
    afterTs + ((k : Int) + 1) * barUs

/-- The feature frame of some rebuild: the rows that it holds in full. -/
structure FeatureCache where
  builtAt : Time
  kept : Time → Bool

/-- What the bot can read: the row of a bar in the 15-minute table at a clock, and the price of the
asset at a clock. -/
structure ChentoFeed where
  table : Time → Time → Option ChentoBar
  price : Time → Option ℚ
  /-- `LIVE_BAR_SETTLE_S`, or 0 in a replay. -/
  settle : Time := 90_000_000
  settle_nonneg : 0 ≤ settle

/-- A tick of the bot: its clock and the frame that is cached then. -/
structure ChentoTick where
  now : Time
  cache : Option FeatureCache := none

namespace ChentoFeed

variable (feed : ChentoFeed)

/-- `_bar_final_by` -/
def barFinalBy (ts : Time) : Time := ts + (barUs + feed.settle)

/-- `_bar_ohlc_for` -/
def barOhlcFor (tick : ChentoTick) (ts : Time) : Option ChentoBar :=
  match tick.cache with
  | some cache =>
    if feed.barFinalBy ts ≤ cache.builtAt ∧ cache.kept ts then
      (feed.table cache.builtAt ts).or (feed.table tick.now ts)
    else feed.table tick.now ts
  | none => feed.table tick.now ts

end ChentoFeed

/-! ## The sweep -/

inductive ChentoReason
  | stopHit
  | targetHit
  | tifExpiry
  deriving DecidableEq

/-- A close, with the bar that it comes from. -/
structure ChentoExit where
  reason : ChentoReason
  price : ℚ
  bar : Option Time
  deriving DecidableEq

/-- The entry `_state` of a trade's notes. -/
structure SavedState where
  position : PositionState
  entryBarTs : Option Time
  lastWalkedTs : Option Time

/-- What the sweep reads and writes of a paper trade. -/
structure ChentoTrade where
  direction : Direction
  /-- `exit_time`, the schedule. -/
  schedExit : Option Time
  state : Option SavedState
  ladderFiredAt : Option Time := none
  /-- `none` while the trade is open. -/
  exit : Option ChentoExit := none

/-- A call of `evaluate_position_step`. -/
structure BarEval where
  now : Time
  ts : Time
  bar : ChentoBar

/-- What a sweep has done to a trade. -/
structure Swept where
  trade : ChentoTrade
  /-- In memory. -/
  position : PositionState
  nActions : ℕ := 0
  lost : Bool := false
  evals : List BarEval := []

section sweep

variable (cfg : ChentoConfig) (feed : ChentoFeed) (tick : ChentoTick) (currentPrice : ℚ)

/-- `_close_paper` -/
def Swept.close (w : Swept) (exit : ChentoExit) : Swept :=
  { w with trade := { w.trade with exit := some exit }, nActions := w.nActions + 1 }

/-- The loop over the closed bars. -/
def walkBars (entryBarTs : Option Time) (costR : ℚ) : List Time → Swept → Swept
  | [], w => w
  | ts :: rest, w =>
    if ∃ sched ∈ w.trade.schedExit, ts ≥ sched then
      w.close ⟨.tifExpiry, ((feed.barOhlcFor tick ts).map (·.close)).getD currentPrice, some ts⟩
    else
      let bar := (feed.barOhlcFor tick ts).getD ⟨currentPrice, currentPrice, currentPrice⟩
      let step := evaluatePositionStep cfg w.trade.direction costR bar w.position
      let w := { w with position := step.2, evals := w.evals ++ [⟨tick.now, ts, bar⟩] }
      match step.1 with
      | .stopHit exitPrice rOutcome =>
        { w.close ⟨.stopHit, exitPrice, some ts⟩ with lost := decide (rOutcome < 0) }
      | .targetHit exitPrice _ => w.close ⟨.targetHit, exitPrice, some ts⟩
      | .ladderFired _ _ =>
        walkBars entryBarTs costR rest { w with
          trade := { w.trade with
            state := some ⟨w.position, entryBarTs, some ts⟩
            ladderFiredAt := some ts }
          nActions := w.nActions + 1 }
      | .nothing => walkBars entryBarTs costR rest w

/-- The body of the loop over the open trades. -/
def sweepTrade (trade : ChentoTrade) (state : SavedState) : Swept :=
  let justClosed := justClosed15mTs (tick.now - feed.settle)
  let walkFrom := (state.lastWalkedTs.or state.entryBarTs).getD (justClosed - barUs)
  let costR := cfg.costBpRt / 10000 * (state.position.entryPrice / state.position.risk)
  let bars := iterClosedBars walkFrom justClosed
  let w := walkBars cfg feed tick currentPrice state.entryBarTs costR bars
    { trade, position := state.position }
  if w.trade.exit.isSome then w
  else if bars = [] then
    if ∃ sched ∈ trade.schedExit, tick.now ≥ sched
      then w.close ⟨.tifExpiry, currentPrice, none⟩ else w
  else { w with trade := { w.trade
    with state := some ⟨w.position, state.entryBarTs, some justClosed⟩ } }

end sweep

/-- The bot's open and closed trades. -/
structure ChentoSys where
  trades : Dict String ChentoTrade
  /-- `_last_loss_ts` -/
  lastLossTs : Option Time := none
  nActions : ℕ := 0
  evals : List (String × BarEval) := []

namespace ChentoSys

variable (cfg : ChentoConfig) (feed : ChentoFeed)

/-- What the sweep does to one of its rows; a trade without a state is skipped. -/
def sweepRow (tick : ChentoTick) (currentPrice : ℚ) (s : ChentoSys) (row : String × ChentoTrade) :
    ChentoSys :=
  match row.2.state with
  | none => s
  | some state =>
    let w := sweepTrade cfg feed tick currentPrice row.2 state
    { trades := s.trades.set row.1 w.trade
      lastLossTs := if w.lost then some tick.now else s.lastLossTs
      nActions := s.nActions + w.nActions
      evals := s.evals ++ w.evals.map fun e => (row.1, e) }

/-- `_sweep_open_positions`; without a price it raises before anything is written. -/
def sweepOpenPositions (s : ChentoSys) (tick : ChentoTick) : ChentoSys :=
  match feed.price tick.now with
  | none => s
  | some currentPrice =>
    if currentPrice ≤ 0 then s
    else (s.trades.entries.filter fun row => row.2.exit.isNone).foldl
      (sweepRow cfg feed tick currentPrice) s

/-- Tick by tick. -/
def sweeps (s : ChentoSys) (ticks : List ChentoTick) : ChentoSys :=
  ticks.foldl (sweepOpenPositions cfg feed) s

end ChentoSys

end P300
