import P300.Lib.Transaction
import P300.Ledger.Schema

/-!
# The lifecycle of a paper trade

`strategies/trades.py` and `trade_adjustments.record_adjustment`, each function as its sequence of
SQL statements: a client of the transactional store over `Ledger`. A `Reply` is what the Python
call returns or raises; a call that ends without `commit` closes its connection and is rolled back.
The receipts that the close helpers log after their commit are left out.
-/

namespace P300

open TxnStore Ledger

inductive TradeError
  /-- `instance_guard.DuplicateInstanceError` -/
  | duplicateInstance (message : String)
  | valueError (message : String)
  /-- `float(None)`, `datetime.fromisoformat(None)` -/
  | typeError
  /-- `sqlite3.IntegrityError` -/
  | integrityError
  /-- The process died. -/
  | crashed
  deriving DecidableEq, Repr

inductive Reply
  | none
  | bool (b : Bool)
  | id (tid : String)
  | raised (e : TradeError)
  deriving DecidableEq, Repr

/-- `x or y` of a nullable number: `NULL` and `0` are falsy. -/
def pyOr (x : Option ℚ) (y : ℚ) : ℚ :=
  match x with
  | some v => if v = 0 then y else v
  | none => y

/-- `float(x)` -/
def pyFloat : Option ℚ → Except TradeError ℚ
  | some v => .ok v
  | none => .error .typeError

/-- `datetime.fromisoformat(x)` of a column. -/
def pyTime : Option Time → Except TradeError Time
  | some t => .ok t
  | none => .error .typeError

/-- `_NO_SCHEDULED_EXIT_ISO`, 2099-12-31. -/
def noScheduledExit : Time := 47_481 * 86_400_000_000

/-- What the helpers read outside the ledger. -/
structure Env where
  /-- `funding.accrued_pct`, `0` where the callers catch its exception. -/
  accruedPct : String → Time → Time → Direction → ℚ
  /-- `stop_path.resolve_sleeve_close` -/
  resolveSleeveClose : TradeRow → ℚ → Time → Except TradeError (Option StopExit)

/-- No funding accrues and no stop is ever hit. -/
def quietEnv : Env := ⟨fun _ _ _ _ => 0, fun _ _ _ => .ok none⟩

/-! ## `trade_adjustments.record_adjustment` -/

structure RecordArgs where
  tradeId : String
  eventType : EventType
  eventTime : Option Time := none
  eventDate : Option Int := none
  qtyDelta : ℚ := 0
  qtyAfter : Option ℚ := none
  leverageBefore : Option ℚ := none
  leverageAfter : Option ℚ := none
  marginDeltaUsdt : ℚ := 0
  sizeUsdtAfter : Option ℚ := none
  price : Option ℚ := none
  feeUsdt : ℚ := 0
  realizedPnlDeltaUsdt : ℚ := 0

/-- The row that `record_adjustment` inserts at clock `now` under the number `seq`. -/
def RecordArgs.row (a : RecordArgs) (now : Time) (seq : Nat) : Adjustment where
  tradeId := a.tradeId
  seq := seq
  eventType := a.eventType
  eventTime := a.eventTime.getD now
  eventDate := a.eventDate.getD (utcDate (a.eventTime.getD now))
  qtyDelta := a.qtyDelta
  qtyAfter := a.qtyAfter
  leverageBefore := a.leverageBefore
  leverageAfter := a.leverageAfter
  marginDeltaUsdt := a.marginDeltaUsdt
  sizeUsdtAfter := a.sizeUsdtAfter
  price := a.price
  feeUsdt := some a.feeUsdt
  realizedPnlDeltaUsdt := some a.realizedPnlDeltaUsdt

/-- `ALL_EVENT_TYPES`, as the error shows it. -/
def allEventTypes : String :=
  "('OPEN', 'SCALE_UP', 'SCALE_DOWN', 'LEVERAGE_ADJUST', 'FLIP', 'CLOSE')"

/-- `record_adjustment(..., con=con)`, going on with whether the row was inserted. -/
def recordAdjustment (now : Time) (a : RecordArgs) (k : Bool → Prog Ledger Reply) :
    Prog Ledger Reply :=
  match a.eventType with
  | .other text =>
    .ret (.raised (.valueError s!"unknown event_type '{text}'; expected one of {allEventTypes}"))
  | _ =>
    .select (nextSeq a.tradeId) fun seq =>
    .exec (insertAdjustment (a.row now seq)) k

/-! ## Opening -/

/-- `_build_unique_key` -/
def buildUniqueKey (variantId sleeveName asset entryTimeIso : String) : String :=
  variantId ++ "|" ++ sleeveName.toUpper ++ "|" ++ asset ++ "|" ++ entryTimeIso

structure OpenArgs where
  /-- `instance_guard._reason` -/
  standingDown : Option String := none
  variantId : String
  /-- `variant.get("capital_usdt")` -/
  capitalUsdt : Option ℚ := none
  /-- `trade_db.get_config("paper_account_usdt")` -/
  paperAccountUsdt : Option ℚ := some 10_000
  sleeveName : String
  asset : String
  direction : Direction
  entryPrice : ℚ
  allocationPct : ℚ
  leverage : ℚ := 1
  /-- `reason.get("regime")` -/
  reasonRegime : Option String := none
  scheduledExitDt : Option Time := none
  regimeValue : Option String := none
  entryDt : Option Time := none
  signalTimeIso : Option String := none
  /-- the clock -/
  now : Time

namespace OpenArgs

variable (a : OpenArgs)

def capital : ℚ := pyOr a.capitalUsdt (a.paperAccountUsdt.getD 10_000)

def sizeUsdt : ℚ := a.capital * (a.allocationPct / 100) * a.leverage

def qty : ℚ := if a.entryPrice > 0 then a.sizeUsdt / a.entryPrice else 0

def entryTime : Time := a.entryDt.getD a.now

/-- `signal_time_iso or now_iso`: a missing or empty signal key falls back to the fill time. -/
def keyTimeIso : String :=
  match a.signalTimeIso with
  | some text => if text = "" then isoformat a.entryTime else text
  | none => isoformat a.entryTime

def uniqueKey : String := buildUniqueKey a.variantId a.sleeveName a.asset a.keyTimeIso

/-- The row of the new trade `tid`. -/
def row (tid : String) : TradeRow where
  id := tid
  series := "SJ"
  asset := a.asset
  direction := a.direction
  strategy := a.sleeveName.toUpper
  regime := a.regimeValue.getD (a.reasonRegime.getD "unknown")
  allocationPct := a.allocationPct
  leverage := some a.leverage
  entryTime := a.entryTime
  exitTime := some (a.scheduledExitDt.getD noScheduledExit)
  actualEntryTime := some a.entryTime
  actualExitTime := none
  entryPrice := some a.entryPrice
  exitPrice := none
  sizeUsdt := some a.sizeUsdt
  qty := some a.qty
  pnlUsdt := none
  pnlPct := none
  status := .open_
  strategyVariant := a.variantId
  resolution := none
  createdAt := a.entryTime
  parentPositionId := none
  currentQty := some a.qty
  currentLeverage := some a.leverage
  currentSizeUsdt := some a.sizeUsdt
  realizedPnlUsdt := some 0
  avgEntryPrice := some a.entryPrice
  uniqueKey := some a.uniqueKey

/-- The `OPEN` event of the new trade `tid`. -/
def event (tid : String) : RecordArgs where
  tradeId := tid
  eventType := .open_
  eventTime := some a.entryTime
  qtyDelta := if a.direction = .long then a.qty else -a.qty
  qtyAfter := some a.qty
  leverageAfter := some a.leverage
  marginDeltaUsdt := a.sizeUsdt
  sizeUsdtAfter := some a.sizeUsdt
  price := some a.entryPrice
  feeUsdt := 0

end OpenArgs

/-- `open_paper_trade` -/
def openPaperTrade (a : OpenArgs) : Prog Ledger Reply :=
  match a.standingDown with
  | some reason => .ret (.raised (.duplicateInstance
      s!"refusing to open a trade while standing down: {reason}"))
  | none =>
    .beginImmediate <|
    .select (idOfKey? a.uniqueKey) fun
    | some existing => .ret (.id existing)
    | none =>
      .select nextSjId fun tid =>
      .exec (insertTrade (a.row tid)) fun
      | .keyTaken =>
        -- another writer beat us to the unique index: return its trade
        .select (idOfKey? a.uniqueKey) fun
        | some winner => .ret (.id winner)
        | none => .ret (.raised .integrityError)
      | .idTaken => .ret (.raised .integrityError)
      | .inserted =>
        recordAdjustment a.now (a.event tid) fun _ => .commit (.ret (.id tid))

/-! ## Closing -/

structure CloseComponents where
  pricePnlUsdt : ℚ
  costUsdt : ℚ
  costPct : ℚ
  feePct : ℚ
  slippagePct : ℚ
  fundingPct : ℚ
  fundingUsdt : ℚ
  pnlUsdt : ℚ
  pnlPct : ℚ

/-- `compute_perp_close` -/
def computePerpClose (env : Env) (direction : Direction) (entryPrice exitPrice qty sizeUsdt : ℚ)
    (asset : String) (entryDt exitDt : Time) (costBpRt slippageBpRt : ℚ) (applyFunding : Bool) :
    Except TradeError CloseComponents := do
  let pricePnl ← match direction with
    | .long => pure ((exitPrice - entryPrice) * qty)
    | .short => pure ((entryPrice - exitPrice) * qty)
    | .other text => throw <| .valueError <|
        s!"compute_perp_close: direction must be LONG or SHORT, got '{text}'. " ++
        "Use close_carry_trade for delta-neutral positions."
  let totalBp := costBpRt + slippageBpRt
  let costUsdt := sizeUsdt * totalBp / 10_000
  let fundingPct := if applyFunding then env.accruedPct asset entryDt exitDt direction else 0
  let fundingUsdt := sizeUsdt * fundingPct / 100
  let pnlUsdt := pricePnl - costUsdt + fundingUsdt
  return {
    pricePnlUsdt := pricePnl
    costUsdt := costUsdt
    costPct := totalBp / 100
    feePct := costBpRt / 100
    slippagePct := slippageBpRt / 100
    fundingPct := fundingPct
    fundingUsdt := fundingUsdt
    pnlUsdt := pnlUsdt
    pnlPct := if sizeUsdt > 0 then pnlUsdt / sizeUsdt * 100 else 0 }

/-- The columns that `persist_close` selects. -/
structure CloseCols where
  asset : String
  direction : Direction
  entryPrice : Option ℚ
  qty : Option ℚ
  sizeUsdt : Option ℚ
  actualEntryTime : Option Time
  currentQty : Option ℚ
  realizedPnlUsdt : Option ℚ
  deriving DecidableEq

def TradeRow.closeCols (r : TradeRow) : CloseCols :=
  ⟨r.asset, r.direction, r.entryPrice, r.qty, r.sizeUsdt, r.actualEntryTime, r.currentQty,
    r.realizedPnlUsdt⟩

structure PersistArgs where
  tradeId : String
  exitPrice : ℚ
  exitTime : Time
  pnlUsdt : ℚ
  pnlPct : ℚ
  feeUsdt : ℚ := 0

namespace PersistArgs

variable (a : PersistArgs)

def cumulativePnl (row : CloseCols) : ℚ := pyOr row.realizedPnlUsdt 0 + a.pnlUsdt

def update (row : CloseCols) : TradeUpdate := fun s =>
  { s with
    status := .closed
    actualExitTime := some a.exitTime
    exitPrice := some a.exitPrice
    pnlUsdt := some (a.cumulativePnl row)
    pnlPct := some a.pnlPct
    resolution := some "filled_closed"
    currentQty := some 0
    realizedPnlUsdt := some (a.cumulativePnl row) }

def event (row : CloseCols) : RecordArgs :=
  let remainingQty := row.currentQty.getD (row.qty.getD 0)
  { tradeId := a.tradeId
    eventType := .close
    eventTime := some a.exitTime
    qtyDelta := if row.direction = .long then -remainingQty else remainingQty
    qtyAfter := some 0
    marginDeltaUsdt := -(row.sizeUsdt.getD 0)
    sizeUsdtAfter := some 0
    price := some a.exitPrice
    feeUsdt := a.feeUsdt
    realizedPnlDeltaUsdt := a.pnlUsdt }

end PersistArgs

/-- What `persist_close` does with the row it has read. -/
def bookClose (a : PersistArgs) (row : CloseCols) (k : Option CloseCols → Prog Ledger Reply) :
    Prog Ledger Reply :=
  .exec (updateOpen a.tradeId (a.update row)) fun rowcount =>
  -- another caller closed the trade between the SELECT and the UPDATE
  if rowcount = 0 then k none
  else recordAdjustment a.exitTime (a.event row) fun _ => k (some row)

/-- `persist_close`, going on with the row as it was before the close, or `none` when this call
did not close the trade. The caller commits. -/
def persistClose (a : PersistArgs) (k : Option CloseCols → Prog Ledger Reply) :
    Prog Ledger Reply :=
  .select (fun d => (d.openTrade? a.tradeId).map (·.closeCols)) fun
  | none => k none
  | some row => bookClose a row k

/-- `persist_close` on a connection of its own. -/
def persistCloseAlone (a : PersistArgs) : Prog Ledger Reply :=
  persistClose a fun
  | some _ => .commit (.ret (.bool true))
  | none => .ret (.bool false)

structure PerpCloseArgs where
  tradeId : String
  exitPrice : ℚ
  costBpRt : ℚ := 10
  slippageBpRt : ℚ := 5
  stopResolver : Option (TradeRow → ℚ → Time → Except TradeError (Option StopExit)) := none
  applyFunding : Bool := true
  exitDt : Option Time := none
  /-- `observed_now` -/
  now : Time

/-- `validate_event_time` of `close_perp_trade`. -/
def validateEventTime (entryDt observedNow : Time) (laterEvents : List Time) (at_ : Time) :
    Except TradeError Unit := do
  if ¬ (entryDt ≤ at_ ∧ at_ ≤ observedNow) then
    throw (.valueError "Trade exit must be between entry and the current clock")
  if laterEvents.any fun adjustedAt => adjustedAt > at_ then
    throw (.valueError "Cannot backdate a close across a later trade adjustment")

/-- The exit price and time of `close_perp_trade`: those of a stop that was hit earlier, for a
strategy in `_STOP_PATH_STRATEGIES` closed without an explicit event time, and otherwise the
caller's. A strategy in `STOP_PATH_REQUIRED` must bring its resolver. -/
def perpFill (env : Env) (a : PerpCloseArgs) (row : TradeRow) (entryDt : Time)
    (laterEvents : List Time) : Except TradeError (ℚ × Time) :=
  let at_ := a.exitDt.getD a.now
  if a.exitDt = none ∧ row.strategy.toUpper ∈ ["ADX", "THU_BEAR"] then
    if a.stopResolver.isNone ∧ row.strategy.toUpper ∈ ["ADX"] then
      .error <| .valueError <|
        row.strategy ++ " closes need a stop_resolver; " ++ a.tradeId ++
        " was closed without one. Route through the sleeve's own close helper, which supplies it."
    else do
      match ← a.stopResolver.getD env.resolveSleeveClose row a.exitPrice at_ with
      | some earlier =>
        validateEventTime entryDt a.now laterEvents earlier.at_
        return (earlier.price, earlier.at_)
      | none => return (a.exitPrice, at_)
  else .ok (a.exitPrice, at_)

/-- What `close_perp_trade` books for the open trade `row` whose events are at `laterEvents`: the
arguments of `persist_close` with the components behind them. -/
def perpCloseBooking (env : Env) (a : PerpCloseArgs) (row : TradeRow) (laterEvents : List Time) :
    Except TradeError (PersistArgs × CloseComponents) := do
  let entryDt ← pyTime row.actualEntryTime
  validateEventTime entryDt a.now laterEvents (a.exitDt.getD a.now)
  let fill ← perpFill env a row entryDt laterEvents
  let basisPrice ← pyFloat (row.avgEntryPrice <|> row.entryPrice)
  let qty ← pyFloat (row.currentQty <|> row.qty)
  let sizeUsdt ← pyFloat (row.currentSizeUsdt <|> row.sizeUsdt)
  let c ← computePerpClose env row.direction basisPrice fill.1 qty sizeUsdt row.asset entryDt fill.2
    a.costBpRt a.slippageBpRt a.applyFunding
  return ({ tradeId := a.tradeId, exitPrice := fill.1, exitTime := fill.2, pnlUsdt := c.pnlUsdt,
            pnlPct := c.pnlPct, feeUsdt := c.costUsdt }, c)

/-- `close_perp_trade`: one write transaction from the read of the row to the commit. -/
def closePerpTrade (env : Env) (a : PerpCloseArgs) : Prog Ledger Reply :=
  .beginImmediate <|
  .select (openTrade? a.tradeId) fun
  | none => .ret .none
  | some row =>
    .select (fun d => (d.eventsOf a.tradeId).map (·.eventTime)) fun laterEvents =>
    match perpCloseBooking env a row laterEvents with
    | .error e => .ret (.raised e)
    | .ok (p, _) => persistClose p fun _ => .commit (.ret .none)

structure CarryCloseArgs where
  tradeId : String
  exitPrice : ℚ
  /-- `CARRY_COST_PCT` -/
  costPct : ℚ := 1 / 5
  /-- `CARRY_SLIPPAGE_PCT` -/
  slippagePct : ℚ := 1 / 25
  now : Time

/-- The columns that `close_carry_trade` selects. -/
structure CarryCols where
  entryPrice : Option ℚ
  qty : Option ℚ
  sizeUsdt : Option ℚ
  actualEntryTime : Option Time
  asset : String
  deriving DecidableEq

def TradeRow.carryCols (r : TradeRow) : CarryCols :=
  ⟨r.entryPrice, r.qty, r.sizeUsdt, r.actualEntryTime, r.asset⟩

/-- What `close_carry_trade` books: collected funding less the round-trip cost. -/
def carryBooking (env : Env) (a : CarryCloseArgs) (row : CarryCols) :
    Except TradeError PersistArgs := do
  let entryDt ← pyTime row.actualEntryTime
  let asset := if row.asset = "" then "BTC" else row.asset
  let fundingPct := env.accruedPct asset entryDt a.now .short
  let totalCostPct := a.costPct + a.slippagePct
  let netPct := fundingPct - totalCostPct
  let sizeUsdt ← pyFloat row.sizeUsdt
  return { tradeId := a.tradeId, exitPrice := a.exitPrice, exitTime := a.now,
           pnlUsdt := sizeUsdt * netPct / 100, pnlPct := netPct,
           feeUsdt := sizeUsdt * totalCostPct / 100 }

/-- `close_carry_trade`: its first read and that of `persist_close` are outside any transaction. -/
def closeCarryTrade (env : Env) (a : CarryCloseArgs) : Prog Ledger Reply :=
  .select (fun d => (d.trade? a.tradeId).map (·.carryCols)) fun
  | none => .ret .none
  | some row =>
    match carryBooking env a row with
    | .error e => .ret (.raised e)
    | .ok p => persistCloseAlone p

/-! ## Resizing -/

/-- `abs(x) < 1e-12` -/
def negligible (x : ℚ) : Prop := |x| < 1 / 1_000_000_000_000

instance (x : ℚ) : Decidable (negligible x) := inferInstanceAs (Decidable (_ < _))

structure ScaleArgs where
  tradeId : String
  newQty : ℚ
  price : ℚ
  feeUsdt : ℚ := 0
  eventTime : Option Time := none
  eventDate : Option Int := none
  now : Time

/-- The columns that `apply_scale` selects. -/
structure ScaleCols where
  direction : Direction
  currentQty : Option ℚ
  currentSizeUsdt : Option ℚ
  currentLeverage : Option ℚ
  entryPrice : Option ℚ
  qty : Option ℚ
  sizeUsdt : Option ℚ
  leverage : Option ℚ
  avgEntryPrice : Option ℚ
  deriving DecidableEq

def TradeRow.scaleCols (r : TradeRow) : ScaleCols :=
  ⟨r.direction, r.currentQty, r.currentSizeUsdt, r.currentLeverage, r.entryPrice, r.qty, r.sizeUsdt,
    r.leverage, r.avgEntryPrice⟩

namespace ScaleArgs

variable (a : ScaleArgs) (row : ScaleCols)

def prevQty : ℚ := row.currentQty.getD (row.qty.getD 0)

def qtyDelta : ℚ := a.newQty - prevQty row

/-- The running average if it is set, otherwise the entry price. -/
def prevAvg : ℚ := row.avgEntryPrice.getD (row.entryPrice.getD 0)

/-- The P&L on the closed slice, net of the fee; only a scale-down books any. -/
def realizedDelta : ℚ :=
  if a.qtyDelta row < 0 ∧ prevAvg row > 0 then
    let sliceQty := -a.qtyDelta row
    let move := a.price - prevAvg row
    sliceQty * (if row.direction = .short then -move else move) - a.feeUsdt
  else 0

/-- The weighted average after a scale-up; a scale-down keeps it. -/
def newAvg : ℚ :=
  if a.qtyDelta row < 0 ∧ prevAvg row > 0 then prevAvg row
  else if a.qtyDelta row > 0 ∧ a.newQty > 0 then
    (prevQty row * prevAvg row + a.qtyDelta row * a.price) / a.newQty
  else prevAvg row

def newSize : ℚ := a.newQty * a.price

def prevSize : ℚ := row.currentSizeUsdt.getD (row.sizeUsdt.getD 0)

def update : TradeUpdate := fun s =>
  { s with
    currentQty := some a.newQty
    currentSizeUsdt := some a.newSize
    realizedPnlUsdt := some (s.realizedPnlUsdt.getD 0 +
      if a.qtyDelta row < 0 then a.realizedDelta row else 0)
    avgEntryPrice := some (a.newAvg row) }

def event : RecordArgs where
  tradeId := a.tradeId
  eventType := if a.qtyDelta row > 0 then .scaleUp else .scaleDown
  eventTime := a.eventTime
  eventDate := a.eventDate
  qtyDelta := if row.direction = .long then a.qtyDelta row else -a.qtyDelta row
  qtyAfter := some a.newQty
  leverageBefore := some (pyOr row.currentLeverage (pyOr row.leverage 1))
  leverageAfter := some (pyOr row.currentLeverage (pyOr row.leverage 1))
  marginDeltaUsdt := a.newSize - prevSize row
  sizeUsdtAfter := some a.newSize
  price := some a.price
  feeUsdt := a.feeUsdt
  realizedPnlDeltaUsdt := a.realizedDelta row

end ScaleArgs

/-- The tail of `apply_scale` and `apply_leverage_adjust`: the update and its event are committed
together, or not at all when the event is refused as a retry. -/
def resize (tid : String) (u : TradeUpdate) (now : Time) (e : RecordArgs) : Prog Ledger Reply :=
  .exec (updateOpen tid u) fun _ =>
  recordAdjustment now e fun recorded =>
  if recorded then .commit (.ret (.bool true)) else .ret (.bool false)

/-- `apply_scale`: the row is read before the transaction that its `UPDATE` starts. -/
def applyScale (a : ScaleArgs) : Prog Ledger Reply :=
  .select (fun d => (d.openTrade? a.tradeId).map (·.scaleCols)) fun
  | none => .ret (.bool false)
  | some row =>
    if negligible (a.qtyDelta row) then .ret (.bool false)
    else resize a.tradeId (a.update row) a.now (a.event row)

structure LeverageArgs where
  tradeId : String
  newLeverage : ℚ
  price : ℚ
  feeUsdt : ℚ := 0
  eventTime : Option Time := none
  eventDate : Option Int := none
  now : Time

/-- The columns that `apply_leverage_adjust` selects. -/
structure LeverageCols where
  currentQty : Option ℚ
  currentSizeUsdt : Option ℚ
  currentLeverage : Option ℚ
  qty : Option ℚ
  sizeUsdt : Option ℚ
  leverage : Option ℚ
  deriving DecidableEq

def TradeRow.leverageCols (r : TradeRow) : LeverageCols :=
  ⟨r.currentQty, r.currentSizeUsdt, r.currentLeverage, r.qty, r.sizeUsdt, r.leverage⟩

namespace LeverageArgs

variable (a : LeverageArgs) (row : LeverageCols)

def prevLev : ℚ := row.currentLeverage.getD (pyOr row.leverage 1)

def curQty : ℚ := row.currentQty.getD (row.qty.getD 0)

def notional : ℚ := curQty row * a.price

def marginDelta : ℚ :=
  let marginOld := if prevLev row > 0 then a.notional row / prevLev row else a.notional row
  let marginNew := if a.newLeverage > 0 then a.notional row / a.newLeverage else a.notional row
  marginNew - marginOld

def update : TradeUpdate := fun s =>
  { s with
    currentLeverage := some a.newLeverage
    currentSizeUsdt := some (a.notional row) }

def event : RecordArgs where
  tradeId := a.tradeId
  eventType := .leverageAdjust
  eventTime := a.eventTime
  eventDate := a.eventDate
  qtyDelta := 0
  qtyAfter := some (curQty row)
  leverageBefore := some (prevLev row)
  leverageAfter := some a.newLeverage
  marginDeltaUsdt := a.marginDelta row
  sizeUsdtAfter := some (a.notional row)
  price := some a.price
  feeUsdt := a.feeUsdt

end LeverageArgs

/-- `apply_leverage_adjust` -/
def applyLeverageAdjust (a : LeverageArgs) : Prog Ledger Reply :=
  .select (fun d => (d.openTrade? a.tradeId).map (·.leverageCols)) fun
  | none => .ret (.bool false)
  | some row =>
    if negligible (a.newLeverage - LeverageArgs.prevLev row) then .ret (.bool false)
    else resize a.tradeId (a.update row) a.now (a.event row)

structure FlipArgs where
  tradeId : String
  newDirection : Direction
  price : ℚ
  feeUsdt : ℚ := 0
  eventTime : Option Time := none
  eventDate : Option Int := none
  now : Time

/-- The columns that `apply_flip` selects. -/
structure FlipCols where
  asset : String
  direction : Direction
  strategy : String
  regime : String
  allocationPct : ℚ
  leverage : Option ℚ
  currentQty : Option ℚ
  currentSizeUsdt : Option ℚ
  currentLeverage : Option ℚ
  qty : Option ℚ
  sizeUsdt : Option ℚ
  entryPrice : Option ℚ
  basisPrice : Option ℚ
  realizedPnlUsdt : Option ℚ
  strategyVariant : String
  exitTime : Option Time
  actualEntryTime : Option Time
  deriving DecidableEq

def TradeRow.flipCols (r : TradeRow) : FlipCols where
  asset := r.asset
  direction := r.direction
  strategy := r.strategy
  regime := r.regime
  allocationPct := r.allocationPct
  leverage := r.leverage
  currentQty := r.currentQty
  currentSizeUsdt := r.currentSizeUsdt
  currentLeverage := r.currentLeverage
  qty := r.qty
  sizeUsdt := r.sizeUsdt
  entryPrice := r.entryPrice
  basisPrice := r.avgEntryPrice <|> r.entryPrice
  realizedPnlUsdt := r.realizedPnlUsdt
  strategyVariant := r.strategyVariant
  exitTime := r.exitTime
  actualEntryTime := r.actualEntryTime

namespace FlipArgs

variable (a : FlipArgs) (row : FlipCols)

def curQty : ℚ := row.currentQty.getD (row.qty.getD 0)

def curLev : ℚ := row.currentLeverage.getD (pyOr row.leverage 1)

def realizedClose : ℚ :=
  let move := a.price - row.basisPrice.getD 0
  curQty row * (if row.direction = .short then -move else move) - a.feeUsdt / 2

def cumulativePnl : ℚ := pyOr row.realizedPnlUsdt 0 + a.realizedClose row

def flipTime : Time := a.eventTime.getD a.now

def refSize : ℚ := row.currentSizeUsdt.getD (row.sizeUsdt.getD 0)

def update : TradeUpdate := fun s =>
  { s with
    status := .closed
    actualExitTime := some a.flipTime
    exitPrice := some a.price
    pnlUsdt := some (a.cumulativePnl row)
    pnlPct := some (if refSize row ≠ 0 then a.cumulativePnl row / refSize row * 100 else 0)
    resolution := some "filled_flipped"
    currentQty := some 0
    realizedPnlUsdt := some (a.cumulativePnl row) }

/-- The `FLIP` event on the old trade. -/
def closeEvent : RecordArgs where
  tradeId := a.tradeId
  eventType := .flip
  eventTime := some a.flipTime
  eventDate := a.eventDate
  qtyDelta := if row.direction = .long then -curQty row else curQty row
  qtyAfter := some 0
  leverageBefore := some (curLev row)
  leverageAfter := some (curLev row)
  marginDeltaUsdt := -(pyOr row.currentSizeUsdt (row.sizeUsdt.getD 0))
  sizeUsdtAfter := some 0
  price := some a.price
  feeUsdt := a.feeUsdt / 2
  realizedPnlDeltaUsdt := a.realizedClose row

def newSize : ℚ := curQty row * a.price

def newQty : ℚ := if a.price > 0 then a.newSize row / a.price else 0

/-- The row of the new trade `tid` in the opposite direction. -/
def childRow (tid : String) : TradeRow where
  id := tid
  series := "SJ"
  asset := row.asset
  direction := a.newDirection
  strategy := row.strategy
  regime := row.regime
  allocationPct := row.allocationPct
  leverage := some (curLev row)
  entryTime := a.flipTime
  exitTime := some (row.exitTime.getD noScheduledExit)
  actualEntryTime := some a.flipTime
  actualExitTime := none
  entryPrice := some a.price
  exitPrice := none
  sizeUsdt := some (a.newSize row)
  qty := some (a.newQty row)
  pnlUsdt := none
  pnlPct := none
  status := .open_
  strategyVariant := row.strategyVariant
  resolution := none
  createdAt := a.flipTime
  parentPositionId := some a.tradeId
  currentQty := some (a.newQty row)
  currentLeverage := some (curLev row)
  currentSizeUsdt := some (a.newSize row)
  realizedPnlUsdt := some 0
  avgEntryPrice := some a.price
  uniqueKey := none

/-- The `OPEN` event of the new trade `tid`. -/
def openEvent (tid : String) : RecordArgs where
  tradeId := tid
  eventType := .open_
  eventTime := some a.flipTime
  eventDate := a.eventDate
  qtyDelta := if a.newDirection = .long then a.newQty row else -a.newQty row
  qtyAfter := some (a.newQty row)
  leverageAfter := some (curLev row)
  marginDeltaUsdt := a.newSize row
  sizeUsdtAfter := some (a.newSize row)
  price := some a.price
  feeUsdt := a.feeUsdt / 2

end FlipArgs

/-- What `apply_flip` does with the row it has read: neither the row count of the `UPDATE` nor the
outcome of the `FLIP` record is looked at. -/
def flipLegs (a : FlipArgs) (row : FlipCols) : Prog Ledger Reply :=
  .exec (updateOpen a.tradeId (a.update row)) fun _ =>
  recordAdjustment a.flipTime (a.closeEvent row) fun _ =>
  .select nextSjId fun newTid =>
  .exec (insertTrade (a.childRow row newTid)) fun
  | .inserted =>
    recordAdjustment a.flipTime (a.openEvent row newTid) fun _ => .commit (.ret (.id newTid))
  | _ => .ret (.raised .integrityError)

/-- `apply_flip`: the row is read before the transaction that its `UPDATE` starts. -/
def applyFlip (a : FlipArgs) : Prog Ledger Reply :=
  match a.newDirection with
  | .other text =>
    .ret (.raised (.valueError s!"new_direction must be LONG or SHORT, got '{text}'"))
  | _ =>
    .select (fun d => (d.openTrade? a.tradeId).map (·.flipCols)) fun
    | none => .ret .none
    | some row =>
      if row.direction = a.newDirection then .ret .none else flipLegs a row

/-! ## Calls -/

/-- A call of one of the lifecycle helpers. -/
inductive Call
  | openTrade (a : OpenArgs)
  | scale (a : ScaleArgs)
  | leverage (a : LeverageArgs)
  | flip (a : FlipArgs)
  | closePerp (a : PerpCloseArgs)
  | closeCarry (a : CarryCloseArgs)
  | persistClose (a : PersistArgs)

def Call.prog (env : Env) : Call → Prog Ledger Reply
  | .openTrade a => openPaperTrade a
  | .scale a => applyScale a
  | .leverage a => applyLeverageAdjust a
  | .flip a => applyFlip a
  | .closePerp a => closePerpTrade env a
  | .closeCarry a => closeCarryTrade env a
  | .persistClose a => persistCloseAlone a

/-- The call run by itself: the ledger it leaves and what it returns. -/
def Call.run (env : Env) (c : Call) (d : Ledger) : Ledger × Reply := (c.prog env).run d

end P300
