import P300.Bots.R4Tick
import P300.Bots.SqueezeSignal

/-!
# The tick of the short squeeze bot

`bots/short_squeeze`: `decide` sweeps the open trade of a variant and then looks for a trigger,
`execute` opens it at the size of the runner, and the backstop closes what is due. The two variants
run in one process on the same signals; they differ in the exits and in the size. The diagnostics
file and the logs are left out.
-/

namespace P300

open Ledger

/-! ## Configuration -/

/-- A row of `VARIANTS` with its `capital_usdt`. -/
structure SqueezeVariant where
  id : String
  useStop : Bool
  capitalUsdt : ℚ
  deriving DecidableEq

/-- `bots/short_squeeze/config.py`: `VARIANTS` -/
def squeezeVariants : List SqueezeVariant := [
  ⟨"bot_short_squeeze_v1", true, 10_000⟩, ⟨"bot_short_squeeze_nostop_v1", false, 10_000⟩]

/-- `TP_R` -/
def squeezeTpR : ℚ := 3

/-- `STOP_BUFFER` -/
def stopBuffer : ℚ := 1 / 1000

/-- `TIME_STOP_HOURS`, in microseconds. -/
def squeezeTimeStop : Time := 6 * 3_600_000_000

/-- `RISK_PCT` -/
def squeezeRiskPct : ℚ := 1

/-- `NOTIONAL_MAX_X` -/
def squeezeNotionalMaxX : ℚ := 3

/-- `NOSTOP_NOTIONAL_X` -/
def nostopNotionalX : ℚ := 1

/-! ## What a tick reads -/

structure SqueezeInputs where
  /-- `stale_tables(MGMT_TABLES)`, or `repr` of what it raises. -/
  staleMgmt : Except String (List (String × Option ℚ)) := .ok []
  data : SqueezeData := {}
  /-- `price_feed.get_current_price` of the sweep. -/
  price : Option ℚ := none
  sweepNow : Time
  /-- The clock of `decide` after the sweep. -/
  now : Time := sweepNow
  /-- `stale_tables(ENTRY_TABLES)`, or `repr` of what it raises. -/
  staleEntry : Except String (List (String × Option ℚ)) := .ok []
  /-- `instance_guard._reason` -/
  standingDown : Option String := none
  /-- `trade_db.get_config("paper_account_usdt")` -/
  paperAccountUsdt : Option ℚ := some 10_000
  /-- The clock of `open_paper_trade`. -/
  openNow : Time := now
  /-- The clock after it. -/
  firedNow : Time := openNow
  /-- The clock of the backstop. -/
  exitsNow : Time := firedNow
  /-- The clock of the closes of the sweep. -/
  sweepCloseNow : Time := sweepNow
  /-- The clock of the closes of the backstop. -/
  closeNow : Time := exitsNow
  /-- `price_feed.get_current_price` of the backstop. -/
  currentPrice : String → Ledger → Except TradeError (Option ℚ) := fun _ _ => .ok none
  env : Env := quietEnv
  /-- `repr` of an exception -/
  repr : TradeError → String := fun _ => "error"

/-- The clock does not go back during the tick. -/
def SqueezeInputs.Ordered (inputs : SqueezeInputs) : Prop :=
  inputs.sweepNow ≤ inputs.sweepCloseNow ∧ inputs.sweepCloseNow ≤ inputs.now ∧
  inputs.now ≤ inputs.openNow ∧ inputs.openNow ≤ inputs.firedNow ∧
  inputs.firedNow ≤ inputs.exitsNow ∧ inputs.exitsNow ≤ inputs.closeNow

instance (inputs : SqueezeInputs) : Decidable inputs.Ordered :=
  inferInstanceAs (Decidable (_ ∧ _ ∧ _ ∧ _ ∧ _ ∧ _))

/-- What the sweep needs of the notes of a trade. -/
structure SqueezeNotes where
  /-- `_stop_price` -/
  stopPrice : Option ℚ := none
  /-- `_target_price` -/
  targetPrice : Option ℚ := none
  /-- `_time_stop_iso` -/
  timeStop : Option Time := none
  deriving DecidableEq

/-- The ledger, the column `notes` of it, and the memory of the process. -/
structure SqueezeBot where
  ledger : Ledger
  notes : Dict String SqueezeNotes := .empty
  memory : SqueezeMemory := {}

/-! ## The sweep -/

/-- Why an open trade is closed at a price, in the order in which the sweep asks. -/
def SqueezeNotes.exitReason (n : SqueezeNotes) (price : ℚ) (now : Time) : Option String :=
  if ∃ stop ∈ n.stopPrice, price ≤ stop then some "stop_loss"
  else if ∃ target ∈ n.targetPrice, price ≥ target then some "take_profit"
  else if ∃ t ∈ n.timeStop, now ≥ t then some "time_stop"
  else none

/-- `_close_paper` -/
def squeezeClose (env : Env) (now : Time) (tid : String) (price : ℚ) (d : Ledger) :
    Except TradeError Unit × Ledger :=
  let a : PerpCloseArgs := {
    tradeId := tid, exitPrice := price, costBpRt := 10, slippageBpRt := 0, now }
  match (Call.closePerp a).run env d with
  | (d, .raised e) => (.error e, d)
  | (d, _) => (.ok (), d)

/-- `_get_open_short_squeeze_trades` -/
def openSqueezeTrades (variantId : String) (d : Ledger) : List TradeRow :=
  (d.openOf variantId).filter fun r => r.strategy = "SHORT_SQUEEZE"

/-- `except (TypeError, ValueError): pass`, which is around the close of a time stop only. -/
def passes (reason : String) : TradeError → Bool
  | .typeError | .valueError _ => reason = "time_stop"
  | _ => false

/-- The loop of the sweep: the trades that it closes with the reasons. -/
def sweepLoop (inputs : SqueezeInputs) (price : ℚ) (notes : Dict String SqueezeNotes) :
    List TradeRow → List (String × String) → Ledger →
    Except TradeError (List (String × String)) × Ledger
  | [], closed, d => (.ok closed, d)
  | r :: rows, closed, d =>
    if r.direction ≠ .long then sweepLoop inputs price notes rows closed d
    else match ((notes.get? r.id).getD {}).exitReason price inputs.sweepNow with
    | none => sweepLoop inputs price notes rows closed d
    | some reason =>
      match squeezeClose inputs.env inputs.sweepCloseNow r.id price d with
      | (.ok _, d) => sweepLoop inputs price notes rows (closed ++ [(r.id, reason)]) d
      | (.error e, d) =>
        if passes reason e then sweepLoop inputs price notes rows closed d else (.error e, d)

/-- `_sweep_open_positions` -/
def sweepOpenPositions (variantId : String) (inputs : SqueezeInputs) (bot : SqueezeBot) :
    Except String (List (String × String)) × SqueezeBot :=
  match inputs.data.read .openTrades (openSqueezeTrades variantId bot.ledger) with
  | .error e => (.error e, bot)
  | .ok [] => (.ok [], bot)
  | .ok trades =>
    match inputs.data.read .price inputs.price with
    | .error e => (.error e, bot)
    | .ok none => (.ok [], bot)
    | .ok (some price) =>
      match sweepLoop inputs price bot.notes trades [] bot.ledger with
      | (.error e, ledger) => (.error (inputs.repr e), { bot with ledger })
      | (.ok closed, ledger) => (.ok closed, { bot with ledger })

/-! ## Decisions -/

/-- What `decide` puts into the reason of an intent. -/
structure SqueezeReason where
  /-- `bar_ts_utc` to `prior_low_24x15m` -/
  fire : SqueezeFire
  notes : SqueezeNotes
  /-- `_reference_stop_price` -/
  referenceStopPrice : ℚ
  /-- `_reference_target_price` -/
  referenceTargetPrice : ℚ
  /-- `_entry_price` -/
  entryPrice : ℚ

structure SqueezeIntent where
  allocationPct : ℚ
  leverage : ℚ
  reason : SqueezeReason
  scheduledExitDt : Time

/-- The intent on a bar that fires, unless it closes below its own stop. -/
def squeezeIntent (useStop : Bool) (now : Time) (fire : SqueezeFire) : Option SqueezeIntent :=
  let entry := fire.bar.close
  let stop := fire.bar.low * (1 - stopBuffer)
  let risk := entry - stop
  if risk ≤ 0 then none
  else
    let target := entry + squeezeTpR * risk
    let timeStop := now + squeezeTimeStop
    some {
      -- placeholders: the runner sizes
      allocationPct := 100
      leverage := 1
      scheduledExitDt := timeStop
      reason := {
        fire
        notes := {
          stopPrice := if useStop then some stop else none
          targetPrice := if useStop then some target else none
          timeStop := some timeStop }
        referenceStopPrice := stop
        referenceTargetPrice := target
        entryPrice := entry } }

/-- `decide` once the sweep is over. -/
def decideEntry (variant : SqueezeVariant) (inputs : SqueezeInputs) (bot : SqueezeBot) :
    Except String (Option SqueezeIntent × SqueezeStatus) × SqueezeBot :=
  if ¬ is15mBoundary inputs.now then (.ok (none, .not15mBoundary), bot)
  else match inputs.data.read .guard (openSqueezeTrades variant.id bot.ledger) with
  | .error e => (.error e, bot)
  | .ok (_ :: _) => (.ok (none, .positionOpen), bot)
  | .ok [] =>
    let (result, memory) := evaluateTrigger inputs.data variant.id inputs.now bot.memory
    let bot := { bot with memory }
    match result with
    | .error e => (.error e, bot)
    | .ok (.error status) => (.ok (none, status), bot)
    | .ok (.ok fire) =>
      match squeezeIntent variant.useStop inputs.now fire with
      | none => (.ok (none, .invalidRisk), bot)
      | some intent => (.ok (some intent, .decided), bot)

/-- `decide` -/
def squeezeDecide (variant : SqueezeVariant) (inputs : SqueezeInputs) (bot : SqueezeBot) :
    Except String (Option SqueezeIntent × SqueezeStatus) × SqueezeBot :=
  match sweepOpenPositions variant.id inputs bot with
  | (.error e, bot) => (.error e, bot)
  | (.ok _, bot) => decideEntry variant inputs bot

/-! ## Sizing -/

/-- What a sizing returns: the leverage of the resized intent, and the info. -/
structure Sized where
  leverage : ℚ
  stopPct : ℚ
  notional : ℚ
  atCap : Bool
  deriving DecidableEq

/-- `botlib.size_intent_fixed_r` -/
def sizeIntentFixedR (entry stop capital riskPct notionalMaxX : ℚ) : Except String Sized :=
  let stopPct := |entry - stop| / entry
  if entry = 0 then .error "ZeroDivisionError('float division by zero')"
  else if stopPct ≤ 0 then .error "ValueError('non-positive stop distance')"
  else if capital = 0 then .error "ZeroDivisionError('float division by zero')"
  else
    let notional := capital * (riskPct / 100) / stopPct
    let capped := min notional (notionalMaxX * capital)
    .ok ⟨capped / capital, stopPct, capped, capped < notional⟩

/-- `size_intent` of the runner. -/
def sizeSqueeze (variant : SqueezeVariant) (reason : SqueezeReason) : Except String Sized :=
  let entry := reason.entryPrice
  if variant.useStop then
    match reason.notes.stopPrice with
    | none => .error "TypeError('float() argument must be a real number')"
    | some stop =>
      sizeIntentFixedR entry stop variant.capitalUsdt squeezeRiskPct squeezeNotionalMaxX
  else
    let notional := variant.capitalUsdt * nostopNotionalX
    if entry = 0 ∨ variant.capitalUsdt = 0 then
      .error "ZeroDivisionError('float division by zero')"
    else .ok {
      leverage := notional / variant.capitalUsdt
      stopPct := |entry - reason.referenceStopPrice| / entry
      notional, atCap := false }

/-! ## Entries -/

/-- What `execute` hands to `open_paper_trade`. -/
def SqueezeIntent.openArgs (intent : SqueezeIntent) (variant : SqueezeVariant)
    (inputs : SqueezeInputs) : OpenArgs where
  standingDown := inputs.standingDown
  variantId := variant.id
  capitalUsdt := some variant.capitalUsdt
  paperAccountUsdt := inputs.paperAccountUsdt
  sleeveName := "SHORT_SQUEEZE"
  asset := "BTC"
  direction := .long
  entryPrice := intent.reason.entryPrice
  allocationPct := intent.allocationPct
  leverage := intent.leverage
  scheduledExitDt := some intent.scheduledExitDt
  regimeValue := some "short_squeeze"
  signalTimeIso := some (isoformat (intent.reason.fire.bar.ts * 1_000_000))
  now := inputs.openNow

/-- `execute`: the id of the trade, or what `open_paper_trade` raises. The row is inserted with its
notes. -/
def squeezeExecute (variant : SqueezeVariant) (inputs : SqueezeInputs) (intent : SqueezeIntent)
    (bot : SqueezeBot) : Except TradeError String × SqueezeBot :=
  match (Call.openTrade (intent.openArgs variant inputs)).run inputs.env bot.ledger with
  | (ledger, .id tid) => (.ok tid, {
      ledger
      notes := if tid ∈ bot.ledger.trades.map (·.id) then bot.notes
        else bot.notes.set tid intent.reason.notes
      memory := { bot.memory with
        lastTrigger := bot.memory.lastTrigger.set variant.id inputs.firedNow } })
  | (ledger, .raised e) => (.error e, { bot with ledger })
  | (ledger, _) => (.error .typeError, { bot with ledger })

/-! ## The tick -/

inductive SqueezeTickStatus
  | staleMgmtInputs
  | decideError
  | status (st : SqueezeStatus)
  | entryBlockedStaleInputs
  | entryError
  | tickError
  deriving DecidableEq, Repr

/-- What a tick returns. -/
structure SqueezeOut where
  status : SqueezeTickStatus
  hbStatus : HbStatus := .ok
  hbNote : String := ""
  evaluated : Bool := false
  /-- `opened`, with the intent that was executed. -/
  opened : Option (SqueezeIntent × String) := none
  signal : Bool := false
  backstopClosed : List String := []
  backstopRefused : List String := []

/-- The entry of a tick, after `decide` has returned an intent. -/
def squeezeEntry (variant : SqueezeVariant) (inputs : SqueezeInputs) (intent : SqueezeIntent)
    (out : SqueezeOut) (bot : SqueezeBot) : SqueezeOut × SqueezeBot :=
  let failed (e : String) : SqueezeOut :=
    { out with status := .entryError, hbStatus := .error, hbNote := e }
  match inputs.staleEntry with
  | .error e => (failed e, bot)
  | .ok (t :: stale) => ({ out with
      status := .entryBlockedStaleInputs
      hbStatus := .degraded
      hbNote := "entry tables stale: " ++ sortedText (t :: stale) }, bot)
  | .ok [] =>
    match sizeSqueeze variant intent.reason with
    | .error e => (failed e, bot)
    | .ok sized =>
      let resized := { intent with allocationPct := 100, leverage := sized.leverage }
      match squeezeExecute variant inputs resized bot with
      | (.error e, bot) => (failed (inputs.repr e), bot)
      | (.ok tid, bot) => ({ out with opened := some (resized, tid), signal := true }, bot)

/-- The closers of `_backstop`. -/
def squeezeBackstopEnv (inputs : SqueezeInputs) : BackstopEnv Ledger TradeError where
  closers strategy :=
    if strategy = "SHORT_SQUEEZE" then some fun tid price _ d =>
      squeezeClose inputs.env inputs.closeNow tid price d
    else none
  getCurrentPrice asset d := (inputs.currentPrice asset d, d)
  repr := inputs.repr

/-- `_backstop` -/
def squeezeBackstop (variant : SqueezeVariant) (inputs : SqueezeInputs) (out : SqueezeOut)
    (bot : SqueezeBot) : SqueezeOut × SqueezeBot :=
  let opens := openTradesOf variant.id bot.ledger
  let (result, s) :=
    closeDueTrades (squeezeBackstopEnv inputs) variant.id inputs.exitsNow opens bot.ledger
  (match result with
    | .ok closed => { out with backstopClosed := closed }
    | .error e => { out with
        hbStatus := .error
        hbNote := joinNotes [out.hbNote, (e.message.take 300).toString]
        backstopRefused := (e.refused ++ e.errors).map (·.1)
        backstopClosed := e.closed },
    { bot with ledger := s.world })

/-- What a tick does on fresh inputs, up to the backstop. -/
def squeezeEnter (variant : SqueezeVariant) (inputs : SqueezeInputs) (bot : SqueezeBot) :
    SqueezeOut × SqueezeBot :=
  match squeezeDecide variant inputs bot with
  | (.error e, bot) => ({ status := .decideError, hbStatus := .error, hbNote := e }, bot)
  | (.ok (intent, st), bot) =>
    let out : SqueezeOut := { status := .status st, evaluated := st ≠ .not15mBoundary }
    match intent with
    | none => (out, bot)
    | some intent => squeezeEntry variant inputs intent out bot

/-- `tick`; what it raises, `tick_all` catches. -/
def squeezeTick (variant : SqueezeVariant) (inputs : SqueezeInputs) (bot : SqueezeBot) :
    SqueezeOut × SqueezeBot :=
  match inputs.staleMgmt with
  | .error e => ({ status := .tickError, hbStatus := .error, hbNote := e }, bot)
  | .ok (t :: stale) => ({
      status := .staleMgmtInputs
      hbStatus := .degraded
      hbNote := "mgmt tables stale: " ++ sortedText (t :: stale) }, bot)
  | .ok [] =>
    let (out, bot) := squeezeEnter variant inputs bot
    squeezeBackstop variant inputs out bot

/-- `tick_all`: the variants in turn, whatever becomes of the ones before. -/
def squeezeTickAll (inputs : SqueezeVariant → SqueezeInputs) :
    List SqueezeVariant → SqueezeBot → List (String × SqueezeOut) × SqueezeBot
  | [], bot => ([], bot)
  | variant :: variants, bot =>
    let (out, bot) := squeezeTick variant (inputs variant) bot
    let (outs, bot) := squeezeTickAll inputs variants bot
    ((variant.id, out) :: outs, bot)

end P300
