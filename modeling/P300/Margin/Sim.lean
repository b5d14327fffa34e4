import Mathlib.Algebra.Order.Ring.Rat
import Mathlib.Data.List.Sort
import P300.Basic
import P300.Lib.Dict

/-!
# The margin simulator

`margin_sim.simulate_position_path`: one timeline of settlements and bars is walked with the cash,
the open perps, the marks and the outcome of each perp; a perp is liquidated when a check finds its
margin breached.
-/

namespace P300

inductive PerpSide
  | long
  | short
  deriving DecidableEq

/-- `Side.value` -/
def PerpSide.sign : PerpSide → ℚ
  | .long => 1
  | .short => -1

inductive MarginMode
  | isolated
  | cross
  deriving DecidableEq

/-- `margin_sim.PerpPosition`. Every run values each perp at least once, by its quantity, which has
the entry price as divisor: no run with an entry price of 0 returns. -/
structure PerpPosition where
  id : String
  asset : String
  side : PerpSide
  sizeUsdt : ℚ
  leverage : ℚ
  entryPrice : ℚ
  entryTime : Time
  entryPrice_ne : entryPrice ≠ 0
  deriving DecidableEq

def PerpPosition.initialMargin (pos : PerpPosition) : Except String ℚ :=
  if pos.leverage = 0 then .error "ZeroDivisionError" else .ok (pos.sizeUsdt / pos.leverage)

def PerpPosition.qty (pos : PerpPosition) : ℚ := pos.sizeUsdt / pos.entryPrice

structure SpotLeg where
  asset : String
  qty : ℚ
  entryPrice : ℚ
  entryTime : Time

structure PriceBar where
  ts : Time
  high : ℚ
  low : ℚ
  close : ℚ

structure FundingSettlement where
  ts : Time
  asset : String
  rate : ℚ

/-- The reason of a liquidation, with the values that its text shows. -/
inductive LiquidationReason
  | isoBreach (available required : ℚ)
  | crossBreach (pool required : ℚ)
  deriving DecidableEq

structure LiquidationEvent where
  positionId : String
  liqTime : Time
  liqPrice : ℚ
  marginLost : ℚ
  fee : ℚ
  reason : LiquidationReason
  deriving DecidableEq

structure SimParams where
  marginMode : MarginMode := .cross
  mmPct : ℚ := 5 / 1000
  spotHaircut : ℚ := 1 / 2
  liquidationFeePct : ℚ := 5 / 1000

/-! ## Marks -/

def perpUnrealizedPnl (pos : PerpPosition) (markPrice : ℚ) : ℚ :=
  pos.qty * (markPrice - pos.entryPrice) * pos.side.sign

def adverseMark (pos : PerpPosition) (bar : PriceBar) : ℚ :=
  if pos.side = .short then bar.high else bar.low

def spotCollateralValue (spot : SpotLeg) (markPrice haircut : ℚ) : ℚ :=
  spot.qty * markPrice * haircut

def fundingPayment (pos : PerpPosition) (rate : ℚ) : ℚ := pos.side.sign * pos.sizeUsdt * rate

/-- `perp_marks.get(pos.id, pos.entry_price)` -/
def perpMark (perpMarks : Dict String ℚ) (pos : PerpPosition) : ℚ :=
  (perpMarks.get? pos.id).getD pos.entryPrice

/-- `spot_marks.get(spot.asset, spot.entry_price)` -/
def spotMark (spotMarks : Dict String ℚ) (spot : SpotLeg) : ℚ :=
  (spotMarks.get? spot.asset).getD spot.entryPrice

def crossMarginPool (usdtCash : ℚ) (perpPositions : List PerpPosition) (perpMarks : Dict String ℚ)
    (spotLegs : List SpotLeg) (spotMarks : Dict String ℚ) (spotHaircut : ℚ) : ℚ :=
  let pool := spotLegs.foldl (fun pool spot =>
    pool + spotCollateralValue spot (spotMark spotMarks spot) spotHaircut) usdtCash
  perpPositions.foldl (fun pool pos => pool + perpUnrealizedPnl pos (perpMark perpMarks pos)) pool

def requiredMaintenanceMargin (perpPositions : List PerpPosition) (perpMarks : Dict String ℚ)
    (mmPct : ℚ) : ℚ :=
  perpPositions.foldl (fun total pos => total + |pos.qty| * perpMark perpMarks pos * mmPct) 0

/-- The margin that an isolated perp has and needs. -/
def isolatedPositionHealth (pos : PerpPosition) (mark mmPct : ℚ) : Except String (ℚ × ℚ) := do
  let initialMargin ← pos.initialMargin
  return (initialMargin + perpUnrealizedPnl pos mark, |pos.qty| * mark * mmPct)

/-! ## Liquidation -/

/-- What the walk carries. -/
structure MarginState where
  cash : ℚ
  openPerps : List PerpPosition
  closedPnl : Dict String ℚ
  survived : Dict String Bool
  liquidations : List LiquidationEvent
  fundingPaidTotal : ℚ
  perpMarks : Dict String ℚ
  spotMarks : Dict String ℚ
  barsProcessed : ℕ

/-- `_do_liquidate` -/
def doLiquidate (params : SimParams) (pos : PerpPosition) (ts : Time) (mark : ℚ)
    (reason : LiquidationReason) (s : MarginState) : MarginState :=
  let pnl := perpUnrealizedPnl pos mark
  let fee := |pos.qty| * mark * params.liquidationFeePct
  { s with
    cash := s.cash + (pnl - fee)
    closedPnl := s.closedPnl.set pos.id (pnl - fee)
    survived := s.survived.set pos.id false
    openPerps := s.openPerps.erase pos
    perpMarks := s.perpMarks.set pos.id mark
    liquidations := s.liquidations ++ [⟨pos.id, ts, mark, |pnl| + fee, fee, reason⟩] }

/-- `_liquidate_one_if_breached` -/
def liquidateOneIfBreached (params : SimParams) (spotLegs : List SpotLeg) (pos : PerpPosition)
    (ts : Time) (mark : ℚ) (s : MarginState) : Except String MarginState :=
  if pos ∉ s.openPerps then .ok s
  else match params.marginMode with
  | .isolated => do
    let (available, required) ← isolatedPositionHealth pos mark params.mmPct
    if available < required then
      return doLiquidate params pos ts mark (.isoBreach available required) s
    else return s
  | .cross =>
    let testMarks := s.perpMarks.set pos.id mark
    let pool := crossMarginPool s.cash s.openPerps testMarks spotLegs s.spotMarks params.spotHaircut
    let required := requiredMaintenanceMargin s.openPerps testMarks params.mmPct
    if pool < required then .ok (doLiquidate params pos ts mark (.crossBreach pool required) s)
    else .ok s

/-- `_liquidate_breaches` -/
def liquidateBreaches (params : SimParams) (spotLegs : List SpotLeg) (ts : Time) (s : MarginState) :
    Except String MarginState :=
  s.openPerps.foldlM (fun s pos =>
    liquidateOneIfBreached params spotLegs pos ts (perpMark s.perpMarks pos) s) s

/-! ## The walk -/

/-- An entry of the timeline. -/
inductive MarginEvent
  | perpBar (asset : String) (bar : PriceBar)
  | spotBar (asset : String) (bar : PriceBar)
  | funding (f : FundingSettlement)

def MarginEvent.ts : MarginEvent → Time
  | .perpBar _ bar => bar.ts
  | .spotBar _ bar => bar.ts
  | .funding f => f.ts

/-- `0 if x[1] == 'funding' else 1` -/
def MarginEvent.rank : MarginEvent → ℕ
  | .funding _ => 0
  | _ => 1

/-- The order of the keys `(ts, rank)`. -/
def timelineLe (a b : MarginEvent) : Prop :=
  a.ts < b.ts ∨ (a.ts = b.ts ∧ a.rank ≤ b.rank)

instance : DecidableRel timelineLe := fun _ _ => inferInstanceAs (Decidable (_ ∨ _))

/-- The sorted timeline. -/
def marginTimeline (perpPriceBars spotPriceBars : Dict String (List PriceBar))
    (fundingSettlements : List FundingSettlement) : List MarginEvent :=
  let perpBars := perpPriceBars.entries.flatMap fun e => e.2.map (MarginEvent.perpBar e.1)
  let spotBars := spotPriceBars.entries.flatMap fun e => e.2.map (MarginEvent.spotBar e.1)
  (perpBars ++ spotBars ++ fundingSettlements.map MarginEvent.funding).insertionSort timelineLe

/-- One perp pays a settlement, if it is on its asset. -/
def payFunding (f : FundingSettlement) (s : MarginState) (pos : PerpPosition) : MarginState :=
  if pos.asset ≠ f.asset then s
  else
    let pay := fundingPayment pos f.rate
    { s with cash := s.cash - pay, fundingPaidTotal := s.fundingPaidTotal + pay }

/-- One perp is checked within a bar, and marked at the close if it stays open. -/
def checkInBar (params : SimParams) (spotLegs : List SpotLeg) (bar : PriceBar) (s : MarginState)
    (pos : PerpPosition) : Except String MarginState := do
  let s ← liquidateOneIfBreached params spotLegs pos bar.ts (adverseMark pos bar) s
  if pos ∈ s.openPerps then return { s with perpMarks := s.perpMarks.set pos.id bar.close }
  else return s

/-- The body of the loop of `simulate_position_path`; it is left once no perp is open. -/
def MarginState.step (params : SimParams) (spotLegs : List SpotLeg) (s : MarginState)
    (event : MarginEvent) : Except String MarginState :=
  if s.openPerps = [] then .ok s
  else match event with
  | .funding f =>
    liquidateBreaches params spotLegs f.ts (s.openPerps.foldl (payFunding f) s)
  | .perpBar asset bar =>
    (s.openPerps.filter fun p => p.asset = asset).foldlM (checkInBar params spotLegs bar)
      { s with barsProcessed := s.barsProcessed + 1 }
  | .spotBar asset bar => .ok { s with spotMarks := s.spotMarks.set asset bar.close }

/-- The state before the loop. -/
def marginStart (initialUsdt : ℚ) (perpPositions : List PerpPosition) (spotLegs : List SpotLeg) :
    MarginState where
  cash := initialUsdt
  openPerps := perpPositions
  closedPnl := perpPositions.foldl (fun d p => d.set p.id 0) .empty
  survived := perpPositions.foldl (fun d p => d.set p.id true) .empty
  liquidations := []
  fundingPaidTotal := 0
  perpMarks := perpPositions.foldl (fun d p => d.set p.id p.entryPrice) .empty
  spotMarks := spotLegs.foldl (fun d s => d.set s.asset s.entryPrice) .empty
  barsProcessed := 0

/-- The walk over some events. -/
def marginRun (params : SimParams) (spotLegs : List SpotLeg) (s : MarginState)
    (events : List MarginEvent) : Except String MarginState :=
  events.foldlM (MarginState.step params spotLegs) s

structure SimulationResult where
  finalUsdt : ℚ
  finalPerpPnl : Dict String ℚ
  fundingPaid : ℚ
  liquidations : List LiquidationEvent
  survived : Dict String Bool
  barsProcessed : ℕ

/-- The survivors' profits are realized at the last marks. -/
def MarginState.result (s : MarginState) : SimulationResult where
  finalUsdt := s.cash
  finalPerpPnl := s.openPerps.foldl (fun closedPnl pos =>
    closedPnl.set pos.id (perpUnrealizedPnl pos (perpMark s.perpMarks pos))) s.closedPnl
  fundingPaid := s.fundingPaidTotal
  liquidations := s.liquidations
  survived := s.survived
  barsProcessed := s.barsProcessed

/-- `margin_sim.simulate_position_path` -/
def simulatePositionPath (initialUsdt : ℚ) (perpPositions : List PerpPosition)
    (spotLegs : List SpotLeg) (perpPriceBars spotPriceBars : Dict String (List PriceBar))
    (fundingSettlements : List FundingSettlement) (params : SimParams := {}) :
    Except String SimulationResult := do
  let s ← marginRun params spotLegs (marginStart initialUsdt perpPositions spotLegs)
    (marginTimeline perpPriceBars spotPriceBars fundingSettlements)
  return s.result

end P300
