import Mathlib.Algebra.Order.Field.Rat
import P300.Basic
import P300.Lib.Dict
import P300.Lib.KeyTable

/-!
# The signal of the short squeeze bot

`bots/short_squeeze/strategy/signal.py` up to `_evaluate_trigger`: a closed 15m bar in London or New
York hours that takes out the low of the last six hours on heavy perp selling, after an Asia session
in which the open interest rose against a falling price. What a process has read once a day it keeps
in its memory; the last trigger of a variant too.
-/

namespace P300

/-! ## Parameters -/

/-- `PERP_CVD_PCT_MAX` -/
def perpCvdPctMax : ℚ := 15 / 100

/-- `DIVERGENCE_PCT_MIN` -/
def divergencePctMin : ℚ := 70 / 100

/-- `CLOSE_IN_RANGE_MIN` -/
def closeInRangeMin : ℚ := 10 / 100

/-- `LOOKBACK_BARS` -/
def lookbackBars : Int := 24

/-- 15 minutes, in microseconds. -/
def bar15m : Time := 900_000_000

/-- `15 * COOLDOWN_BARS` minutes, in microseconds. -/
def squeezeCooldown : Time := bar15m * 16

/-- `WINDOW_DAYS`, in microseconds. -/
def squeezeWindow : Time := 90 * 86_400_000_000

/-- `ASIA_OI_PCT_MIN` -/
def asiaOiPctMin : ℚ := 5 / 1000

/-! ## Helpers of `math.py` -/

inductive Session
  | asia
  | london
  | ny
  deriving DecidableEq, Repr

/-- `SESSIONS` -/
def sessions : List (Session × Int × Int) := [(.asia, 0, 7), (.london, 7, 14), (.ny, 14, 21)]

def sessionOfHour (hour : Int) : Option Session :=
  (sessions.find? fun s => s.2.1 ≤ hour ∧ hour < s.2.2).map Prod.fst

def percentileRank (value : ℚ) (distribution : List ℚ) : ℚ :=
  if distribution.length = 0 then 0
  else (distribution.countP fun x => x ≤ value) / distribution.length

def closeInRange (high low close : ℚ) : ℚ := (close - low) / max (high - low) (1 / 1_000_000_000)

/-- An hourly bar of the Asia session; the open interest of a later bar is filled in. -/
structure AsiaBar where
  open_ : ℚ
  close : ℚ
  oiClose : Option ℚ
  funding : Option ℚ

structure MacroSummary where
  closeLtOpen : Bool
  closeGtOpen : Bool
  oiPct : ℚ
  fundMean : ℚ
  isShortMacro : Bool
  isLongMacro : Bool
  deriving DecidableEq

/-- `float(np.mean(vals)) if vals else 0.0` -/
def meanOrZero (vals : List ℚ) : ℚ := if vals = [] then 0 else vals.sum / vals.length

/-- `asia_session_summary`, of bars whose open interest is there. -/
def asiaSessionSummary (bars : List (AsiaBar × ℚ)) : Option MacroSummary :=
  match bars, bars.getLast? with
  | (first, oiOpen) :: _ :: _, some (last, oiClose) =>
    let fundMean := meanOrZero (bars.filterMap (·.1.funding))
    let oiPct := (oiClose - oiOpen) / max oiOpen (1 / 1_000_000_000)
    some {
      closeLtOpen := last.close < first.open_
      closeGtOpen := last.close > first.open_
      oiPct, fundMean
      isShortMacro := last.close < first.open_ ∧ oiPct > asiaOiPctMin ∧ fundMean < 0
      isLongMacro := last.close > first.open_ ∧ oiPct > asiaOiPctMin ∧ fundMean > 0 }
  | _, _ => none

/-- `is_15m_boundary` -/
def is15mBoundary (now : Time) : Bool := now / 60_000_000 % 60 % 15 = 0

/-- `now` without what has passed of its quarter of an hour. -/
def floor15m (now : Time) : Time := now - now % bar15m

/-- `int(dt.timestamp())` -/
def timestampS (t : Time) : Int := t.tdiv 1_000_000

/-- `datetime.fromtimestamp(ts).hour` -/
def hourOfTs (ts : Int) : Int := ts / 3600 % 24

/-! ## Tables -/

/-- `cd_futures_15m` -/
structure FuturesBar where
  open_ : ℚ
  high : ℚ
  low : ℚ
  close : ℚ
  volumeBuy : Option ℚ
  volumeSell : Option ℚ

/-- `cd_spot_15m` -/
structure SpotVolumes where
  volumeBuy : Option ℚ
  volumeSell : Option ℚ

/-- `cd_futures_ohlcv` -/
structure HourBar where
  open_ : ℚ
  close : ℚ

structure SqueezeTables where
  futures15m : KeyTable Int FuturesBar := .empty
  spot15m : KeyTable Int SpotVolumes := .empty
  futuresOhlcv : KeyTable Int HourBar := .empty
  openInterest : KeyTable Int (Option ℚ) := .empty
  fundingRate : KeyTable Int (Option ℚ) := .empty

/-- A row of the join that the loaders select. -/
structure SqueezeBar where
  ts : Int
  open_ : ℚ
  high : ℚ
  low : ℚ
  close : ℚ
  perpCvd : ℚ
  divergence : ℚ

namespace SqueezeTables

variable (t : SqueezeTables)

def bar (ts : Int) (p : FuturesBar) : SqueezeBar :=
  let perpCvd := p.volumeBuy.getD 0 - p.volumeSell.getD 0
  let spotCvd := ((t.spot15m.get? ts).bind (·.volumeBuy)).getD 0 -
    ((t.spot15m.get? ts).bind (·.volumeSell)).getD 0
  { ts, open_ := p.open_, high := p.high, low := p.low, close := p.close, perpCvd
    divergence := spotCvd - perpCvd }

/-- `_load_recent_15m_bars` -/
def recent15mBars (now : Time) (window : Time) : List SqueezeBar :=
  let rows := t.futures15m.rows.filter fun r =>
    timestampS (now - window) ≤ r.1 ∧ r.1 ≤ timestampS now
  let rows := rows.filter fun r => sessionOfHour (hourOfTs r.1) ∈ [some .london, some .ny]
  rows.map fun r => t.bar r.1 r.2

/-- `_load_latest_15m_bar` -/
def latest15mBar (now : Time) : Option SqueezeBar :=
  let ts := timestampS (floor15m now - bar15m)
  (t.futures15m.get? ts).map (t.bar ts)

/-- `_load_prior_lookback_low` -/
def priorLookbackLow (now : Time) (bars : Int) : Option ℚ :=
  let earliest := timestampS (floor15m now - bar15m * (bars + 1))
  let latest := timestampS (floor15m now - bar15m * 2)
  let rows := t.futures15m.rows.filter fun r => earliest ≤ r.1 ∧ r.1 ≤ latest
  (rows.map fun r => r.2.low).min?

/-- `_load_asia_bars` of a date. -/
def asiaBars (date : Int) : List AsiaBar :=
  let start := date * 86_400
  let rows := t.futuresOhlcv.rows.filter fun r => start ≤ r.1 ∧ r.1 < start + 7 * 3600
  rows.map fun r => {
    open_ := r.2.open_, close := r.2.close
    oiClose := (t.openInterest.get? r.1).join, funding := (t.fundingRate.get? r.1).join }

end SqueezeTables

/-- The open interest and the funding of a bar, or the last ones before it. -/
def forwardFill : Option ℚ → Option ℚ → List AsiaBar → List AsiaBar
  | _, _, [] => []
  | lastOi, lastFund, b :: bars =>
    let oi := b.oiClose <|> lastOi
    let fund := b.funding <|> lastFund
    { b with oiClose := oi, funding := fund } :: forwardFill oi fund bars

/-! ## Memory -/

/-- What a process keeps between its ticks. -/
structure SqueezeMemory where
  /-- `_dist_cache_date` with `_perp_cvd_dist` and `_divergence_dist` -/
  dist : Option (Int × List ℚ × List ℚ) := none
  /-- `_macro_cache` -/
  macroCache : Dict Int MacroSummary := .empty
  /-- `_last_trigger_ts` -/
  lastTrigger : Dict String Time := .empty

/-- A query of the bot; any of them may raise. -/
inductive SqueezeRead
  | openTrades
  | price
  | guard
  | recentBars
  | asiaBars
  | latestBar
  | priorLow
  deriving DecidableEq

/-- The market data as a tick finds them. -/
structure SqueezeData where
  tables : SqueezeTables := {}
  /-- `repr` of what a query raises. -/
  fails : SqueezeRead → Option String := fun _ => none

/-- A query. -/
def SqueezeData.read {α : Type} (data : SqueezeData) (q : SqueezeRead) (a : α) : Except String α :=
  match data.fails q with
  | some e => .error e
  | none => .ok a

/-- `_refresh_percentile_distributions` -/
def refreshDistributions (data : SqueezeData) (now : Time) (m : SqueezeMemory) :
    Except String SqueezeMemory := do
  let bars ← data.read .recentBars (data.tables.recent15mBars now squeezeWindow)
  return { m with dist := some (utcDate now, bars.map (·.perpCvd), bars.map (·.divergence)) }

/-- `_get_macro_context` -/
def getMacroContext (data : SqueezeData) (now : Time) (m : SqueezeMemory) :
    Except String (Option MacroSummary × SqueezeMemory) :=
  match m.macroCache.get? (utcDate now) with
  | some cached => .ok (some cached, m)
  | none =>
    -- before 07:00 the session is not over
    if now % 86_400_000_000 < 7 * 3_600_000_000 then .ok (none, m)
    else do
      let raw ← data.read .asiaBars (data.tables.asiaBars (utcDate now))
      let filled := (forwardFill none none raw).filterMap fun b => b.oiClose.map (b, ·)
      match asiaSessionSummary filled with
      | none => return (none, m)
      | some summary =>
        return (some summary, { m with macroCache := m.macroCache.set (utcDate now) summary })

/-! ## The trigger -/

/-- What `decide` reports. -/
inductive SqueezeStatus
  | not15mBoundary
  | positionOpen
  | cooldown
  | noDistribution
  | macroNotReady
  | macroNotShort
  | noLatestBar
  | outOfSession
  | noPriorLow
  | noSweep
  | perpPctTooHigh
  | divergencePctTooLow
  | closeInRangeTooLow
  | invalidRisk
  | decided
  deriving DecidableEq, Repr

/-- The diagnostics of a bar that fires. -/
structure SqueezeFire where
  bar : SqueezeBar
  perpCvdPct : ℚ
  divergencePct : ℚ
  closeInRange : ℚ
  priorLow : ℚ

/-- The gates on the latest bar. -/
def gateBar (bar : SqueezeBar) (priorLow : Option ℚ) (perpDist divergenceDist : List ℚ) :
    Except SqueezeStatus SqueezeFire :=
  match priorLow with
  | none => .error .noPriorLow
  | some priorLow =>
    let perpPct := percentileRank bar.perpCvd perpDist
    let divPct := percentileRank bar.divergence divergenceDist
    let cir := closeInRange bar.high bar.low bar.close
    if bar.low ≥ priorLow then .error .noSweep
    else if perpPct ≥ perpCvdPctMax then .error .perpPctTooHigh
    else if divPct ≤ divergencePctMin then .error .divergencePctTooLow
    else if cir < closeInRangeMin then .error .closeInRangeTooLow
    else .ok ⟨bar, perpPct, divPct, cir, priorLow⟩

/-- `_evaluate_trigger` from the latest bar on. -/
def evaluateBar (data : SqueezeData) (now : Time) (perpDist divergenceDist : List ℚ) :
    Except String (Except SqueezeStatus SqueezeFire) := do
  match ← data.read .latestBar (data.tables.latest15mBar now) with
  | none => return .error .noLatestBar
  | some bar =>
    if sessionOfHour (hourOfTs bar.ts) ∉ [some .london, some .ny] then return .error .outOfSession
    else
      let priorLow ← data.read .priorLow (data.tables.priorLookbackLow now lookbackBars)
      return gateBar bar priorLow perpDist divergenceDist

/-- The cooldown of the variant is not over. -/
def SqueezeMemory.Cooling (m : SqueezeMemory) (variantId : String) (now : Time) : Prop :=
  ∃ last ∈ m.lastTrigger.get? variantId, now - last < squeezeCooldown

instance (m : SqueezeMemory) (variantId : String) (now : Time) :
    Decidable (m.Cooling variantId now) :=
  inferInstanceAs (Decidable (∃ last ∈ m.lastTrigger.get? variantId, now - last < squeezeCooldown))

/-- The distributions of the day. -/
def SqueezeMemory.today (m : SqueezeMemory) (data : SqueezeData) (now : Time) :
    Except String SqueezeMemory :=
  if m.dist.map Prod.fst = some (utcDate now) then .ok m else refreshDistributions data now m

/-- `_evaluate_trigger`: what it returns or raises, and the memory that it leaves. -/
def evaluateTrigger (data : SqueezeData) (variantId : String) (now : Time) (m : SqueezeMemory) :
    Except String (Except SqueezeStatus SqueezeFire) × SqueezeMemory :=
  if m.Cooling variantId now then (.ok (.error .cooldown), m)
  else match m.today data now with
  | .error e => (.error e, m)
  | .ok m =>
    match m.dist with
    | none | some (_, [], _) => (.ok (.error .noDistribution), m)
    | some (_, perpDist, divergenceDist) =>
      match getMacroContext data now m with
      | .error e => (.error e, m)
      | .ok (none, m) => (.ok (.error .macroNotReady), m)
      | .ok (some summary, m) =>
        if ¬ summary.isShortMacro then (.ok (.error .macroNotShort), m)
        else (evaluateBar data now perpDist divergenceDist, m)

end P300
