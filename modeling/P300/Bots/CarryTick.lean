import P300.Bots.CarrySignal
import P300.Bots.R4Tick

/-!
# The tick of the carry bot

`bots/carry`: `decide` sweeps the open pairs of the variant if the exit triggers and otherwise looks
for an entry, `execute` opens a pair at the fixed notional of the runner, and the backstop closes
what is due. `bots/carry_eth` is the same loop with another asset. The process remembers nothing
between two ticks. The logs are left out.
-/

namespace P300

open Ledger

/-! ## Configuration -/

/-- The configuration of a bot: `VARIANT_ID`, `CARRY_ASSET`, `CARRY_NOTIONAL_X` and the
`capital_usdt` of the variant. -/
structure CarryBot where
  id : String
  asset : CarryAsset
  capitalUsdt : ℚ
  notionalX : ℚ
  deriving DecidableEq

/-- `bots/carry/config.py` -/
def carryBot : CarryBot := ⟨"bot_carry_v1", .btc, 10_000, 1⟩

/-- `bots/carry_eth/config.py` -/
def carryEthBot : CarryBot := ⟨"bot_carry_eth_v1", .eth, 10_000, 1⟩

/-- `ENTRY_EXIT_COST_PCT` -/
def entryExitCostPct : ℚ := 1 / 5

/-! ## What a tick reads -/

structure CarryInputs where
  /-- `stale_tables(MGMT_TABLES)`, or `repr` of what it raises. -/
  staleMgmt : Except String (List (String × Option ℚ)) := .ok []
  /-- What the loader reads, or `repr` of what it raises. -/
  tables : Except String CarryTables
  /-- The clock of the loader. -/
  loadNow : Time
  /-- The clock of the loader once it has read the tables. -/
  loadedNow : Time := loadNow
  /-- The clock of `decide`. -/
  now : Time := loadedNow
  /-- `repr` of what `_carry_action_today` raises. -/
  actionError : Option String := none
  /-- `repr` of what `_get_open_carry_trades` raises. -/
  openError : Option String := none
  /-- The clock of the closes of the sweep. -/
  sweepNow : Time := now
  /-- `instance_guard._reason` -/
  standingDown : Option String := none
  /-- `trade_db.get_config("paper_account_usdt")` -/
  paperAccountUsdt : Option ℚ := some 10_000
  /-- The clock of `open_paper_trade`. -/
  openNow : Time := sweepNow
  /-- The clock of the backstop. -/
  exitsNow : Time := openNow
  /-- The clock of the closes of the backstop. -/
  closeNow : Time := exitsNow
  /-- `price_feed.get_current_price` of the backstop. -/
  currentPrice : String → Ledger → Except TradeError (Option ℚ) := fun _ _ => .ok none
  env : Env := quietEnv
  /-- `repr` of an exception -/
  repr : TradeError → String := fun _ => "error"

/-- The clock does not go back during the tick. -/
def CarryInputs.Ordered (inputs : CarryInputs) : Prop :=
  inputs.loadNow ≤ inputs.loadedNow ∧ inputs.loadedNow ≤ inputs.now ∧
  inputs.now ≤ inputs.sweepNow ∧ inputs.sweepNow ≤ inputs.openNow ∧
  inputs.openNow ≤ inputs.exitsNow ∧ inputs.exitsNow ≤ inputs.closeNow

instance CarryInputs.decidableOrdered (inputs : CarryInputs) : Decidable inputs.Ordered :=
  inferInstanceAs (Decidable (_ ∧ _ ∧ _ ∧ _ ∧ _ ∧ _))

/-! ## The ledger -/

/-- `actual_entry_time LIKE 'today%' OR actual_exit_time LIKE 'today%'` -/
def TradeRow.ActedOn (r : TradeRow) (day : Int) : Prop :=
  (∃ t ∈ r.actualEntryTime, utcDate t = day) ∨ ∃ t ∈ r.actualExitTime, utcDate t = day

instance (r : TradeRow) (day : Int) : Decidable (r.ActedOn day) :=
  inferInstanceAs (Decidable (_ ∨ _))

/-- `_carry_action_today` -/
def carryActionToday (variantId : String) (today : Int) (d : Ledger) : Bool :=
  d.trades.any fun r => r.strategyVariant = variantId ∧ r.strategy = "CARRY" ∧ r.ActedOn today

/-- `ORDER BY actual_entry_time DESC` -/
def newestFirst (r r' : TradeRow) : Prop :=
  ∀ t' ∈ r'.actualEntryTime, ∃ t ∈ r.actualEntryTime, t' ≤ t

instance : DecidableRel newestFirst := fun r r' =>
  inferInstanceAs (Decidable (∀ t' ∈ r'.actualEntryTime, ∃ t ∈ r.actualEntryTime, t' ≤ t))

/-- `_get_open_carry_trades` -/
def openCarryTrades (variantId : String) (d : Ledger) : List TradeRow :=
  ((d.openOf variantId).filter fun r => r.strategy = "CARRY").insertionSort newestFirst

/-- `_close_carry_paper` -/
def carryClose (env : Env) (now : Time) (tid : String) (price : ℚ) (d : Ledger) :
    Except TradeError Unit × Ledger :=
  let a : CarryCloseArgs :=
    { tradeId := tid, exitPrice := price, costPct := entryExitCostPct, now }
  match (Call.closeCarry a).run env d with
  | (d, .raised e) => (.error e, d)
  | (d, _) => (.ok (), d)

/-- The exit sweep of `decide`: the trades that it closes. -/
def carrySweep (inputs : CarryInputs) (price : ℚ) :
    List TradeRow → List String → Ledger → Except String (List String) × Ledger
  | [], closed, d => (.ok closed, d)
  | r :: rows, closed, d =>
    match carryClose inputs.env inputs.sweepNow r.id price d with
    | (.ok _, d) => carrySweep inputs price rows (closed ++ [r.id]) d
    | (.error e, d) => (.error (inputs.repr e), d)

/-! ## Decisions -/

inductive CarryStatus
  | warmup
  | closed (tradeIds : List String)
  | decided
  | noAction
  deriving DecidableEq

structure CarryIntent where
  allocationPct : ℚ
  leverage : ℚ
  /-- `_entry_price` -/
  entryPrice : ℚ
  /-- `_fr_7d_avg_pct` -/
  fr7dAvgPct : ℚ
  /-- `_signal_day` -/
  signalDay : Int
  deriving DecidableEq

/-- `decide`: an intent, the status, and the ledger after the sweep. -/
def carryDecide (bot : CarryBot) (inputs : CarryInputs) (d : Ledger) :
    Except String (Option CarryIntent × CarryStatus) × Ledger :=
  match inputs.tables with
  | .error e => (.error e, d)
  | .ok t =>
  match evaluateToday (loadRecentDailyFunding bot.asset t inputs.loadNow
    (utcDate inputs.loadedNow) (exitCumDays + 7)) with
  | none => (.ok (none, .warmup), d)
  | some sig =>
  match inputs.actionError with
  | some e => (.error e, d)
  | none =>
  let today := utcDate inputs.now
  let alreadyActedToday := carryActionToday bot.id today d
  match inputs.openError with
  | some e => (.error e, d)
  | none =>
  match openCarryTrades bot.id d with
  | r :: rows =>
    if sig.exitTrigger then
      match carrySweep inputs sig.spotClose (r :: rows) [] d with
      | (.error e, d) => (.error e, d)
      | (.ok closed, d) => (.ok (none, .closed closed), d)
    else (.ok (none, .noAction), d)
  | [] =>
    if sig.entryOk ∧ ¬ sig.exitTrigger ∧ ¬ alreadyActedToday then
      -- placeholders: the runner sizes
      (.ok (some ⟨100, 1, sig.spotClose, sig.fr7dAvgPct, today⟩, .decided), d)
    else (.ok (none, .noAction), d)

/-! ## Entries -/

/-- `size_intent` -/
def sizeCarry (bot : CarryBot) (intent : CarryIntent) : CarryIntent :=
  { intent with allocationPct := 100, leverage := bot.notionalX }

/-- What `execute` hands to `open_paper_trade`. -/
def CarryIntent.openArgs (intent : CarryIntent) (bot : CarryBot) (inputs : CarryInputs) :
    OpenArgs where
  standingDown := inputs.standingDown
  variantId := bot.id
  capitalUsdt := some bot.capitalUsdt
  paperAccountUsdt := inputs.paperAccountUsdt
  sleeveName := "CARRY"
  asset := bot.asset.name
  direction := .long
  entryPrice := intent.entryPrice
  allocationPct := intent.allocationPct
  leverage := intent.leverage
  reasonRegime := some "unknown"
  signalTimeIso := some (dateIso intent.signalDay)
  now := inputs.openNow

/-- `execute`: the id of the trade, or what `open_paper_trade` raises. -/
def carryExecute (bot : CarryBot) (inputs : CarryInputs) (intent : CarryIntent) (d : Ledger) :
    Except TradeError String × Ledger :=
  match (Call.openTrade (intent.openArgs bot inputs)).run inputs.env d with
  | (d, .id tid) => (.ok tid, d)
  | (d, .raised e) => (.error e, d)
  | (d, _) => (.error .typeError, d)

/-! ## The tick -/

inductive CarryTickStatus
  | staleMgmtInputs
  | decideError
  | status (st : CarryStatus)
  | entryError
  | tickError
  deriving DecidableEq

/-- What a tick returns. -/
structure CarryOut where
  status : CarryTickStatus
  hbStatus : HbStatus := .ok
  hbNote : String := ""
  evaluated : Bool := false
  /-- `opened`, with the intent that was executed. -/
  opened : Option (CarryIntent × String) := none
  signal : Bool := false
  backstopClosed : List String := []
  backstopRefused : List String := []

/-- The closers of `_backstop`. -/
def carryBackstopEnv (inputs : CarryInputs) : BackstopEnv Ledger TradeError where
  closers strategy :=
    if strategy = "CARRY" then some fun tid price _ d =>
      carryClose inputs.env inputs.closeNow tid price d
    else none
  getCurrentPrice asset d := (inputs.currentPrice asset d, d)
  repr := inputs.repr

/-- `_backstop` -/
def carryBackstop (bot : CarryBot) (inputs : CarryInputs) (out : CarryOut) (d : Ledger) :
    CarryOut × Ledger :=
  let (result, s) :=
    closeDueTrades (carryBackstopEnv inputs) bot.id inputs.exitsNow (openTradesOf bot.id d) d
  (match result with
    | .ok closed => { out with backstopClosed := closed }
    | .error e => { out with
        hbStatus := .error
        hbNote := joinNotes [out.hbNote, (e.message.take 300).toString]
        backstopRefused := (e.refused ++ e.errors).map (·.1)
        backstopClosed := e.closed },
    s.world)

/-- What a tick does on fresh inputs, up to the backstop. -/
def carryEnter (bot : CarryBot) (inputs : CarryInputs) (d : Ledger) : CarryOut × Ledger :=
  match carryDecide bot inputs d with
  | (.error e, d) => ({ status := .decideError, hbStatus := .error, hbNote := e }, d)
  | (.ok (intent, st), d) =>
    let out : CarryOut := { status := .status st, evaluated := st ≠ .warmup }
    match intent with
    | none => (out, d)
    | some intent =>
      let resized := sizeCarry bot intent
      match carryExecute bot inputs resized d with
      | (.error e, d) => ({ out with
          status := .entryError, hbStatus := .error, hbNote := inputs.repr e }, d)
      | (.ok tid, d) => ({ out with opened := some (resized, tid), signal := true }, d)

/-- `tick`; what it raises, the loop catches. -/
def carryTick (bot : CarryBot) (inputs : CarryInputs) (d : Ledger) : CarryOut × Ledger :=
  match inputs.staleMgmt with
  | .error e => ({ status := .tickError, hbStatus := .error, hbNote := e }, d)
  | .ok (t :: stale) => ({
      status := .staleMgmtInputs
      hbStatus := .degraded
      hbNote := "mgmt tables stale: " ++ sortedText (t :: stale) }, d)
  | .ok [] =>
    let (out, d) := carryEnter bot inputs d
    carryBackstop bot inputs out d

end P300
