import P300.Bots.Backstop
import P300.Bots.R4Calendar
import P300.Ledger.Exposure

/-!
# The tick of the R4 bot

`bots/r4/runner.py`: a tick goes over the windows, sizes the first intent of each down to what the
open trades leave of the budget, opens it, and then closes what is due. Whatever the entries raise,
the exits run. The logs are left out, and so is `_missed`, which keeps them from repeating
themselves.
-/

namespace P300

open Ledger

/-! ## Configuration -/

/-- What an operator sets in `bots/r4/config.py`; the defaults are what is shipped. -/
structure R4Config where
  /-- `ENABLED` -/
  enabled : R4Strategy → Bool := fun s => s = .eth ∨ s = .ethV2
  /-- `STOP_LOSS_PCT` -/
  stopLossPct : Option ℚ := none

/-- `VARIANT_WEIGHT` -/
def variantWeight : R4Strategy → ℚ := fun _ => 20 / 100

def levCap : ℚ := 75 / 10

def grossMaxX : ℚ := 3

def minNotionalUsdt : ℚ := 250

/-- `LATE_ENTRY_MAX_S`, in microseconds. -/
def lateEntryMax : Int := 300 * 1_000_000

/-- The order of `deciders()`. -/
def r4Strategies : List R4Strategy := [.btc, .eth, .btcV2, .ethV2]

structure R4Variant where
  id : String
  capitalUsdt : ℚ

/-- What a tick reads besides the ledger. -/
structure TickInputs where
  /-- `stale_tables(MGMT_TABLES)`: table and age. -/
  staleMgmt : List (String × Option ℚ) := []
  now : Time
  /-- `repr` of what the lookup of the deciders raises. -/
  lookupError : Option String := none
  /-- The decide function of a window, on the ledger that it finds; or `repr` of what it raises. -/
  decide : R4Strategy → Ledger → Except String (List R4Intent × R4Status)
  /-- `stale_tables(ENTRY_TABLES)` when the window is tried, or `repr` of what it raises. -/
  staleEntry : R4Strategy → Except String (List (String × Option ℚ)) := fun _ => .ok []
  /-- `instance_guard._reason` -/
  standingDown : Option String := none
  /-- `trade_db.get_config("paper_account_usdt")` -/
  paperAccountUsdt : Option ℚ := some 10_000
  env : Env := quietEnv
  /-- The clock of the backstop. -/
  exitsNow : Time := now
  /-- The clock of the close of a trade. -/
  closeNow : String → Time := fun _ => now
  /-- `price_feed.get_current_price` -/
  currentPrice : String → Ledger → Except TradeError (Option ℚ) := fun _ _ => .ok none
  /-- `repr` of an exception -/
  repr : TradeError → String := fun _ => "error"

/-! ## Sizing -/

structure SizeInfo where
  strategy : R4Strategy
  weight : ℚ
  sleeveLev : ℚ
  lev : ℚ
  notional : ℚ
  budget : ℚ
  capped : Bool

/-- The `notional` of `size_intent`: what is left of the budget if more is asked for. -/
def grantedNotional (asked budget : ℚ) : ℚ := if asked > budget then max budget 0 else asked

/-- `size_intent`. What it adds to the reason only goes into the notes of the trade. -/
def sizeIntent (intent : R4Intent) (capital openGross : ℚ) : Option R4Intent × SizeInfo :=
  let strategy := intent.reason.strategy
  let weight := variantWeight strategy
  let lev := min intent.leverage levCap
  let asked := capital * weight * lev
  let budget := grossMaxX * capital - openGross
  let notional := grantedNotional asked budget
  let info : SizeInfo := ⟨strategy, weight, intent.leverage, lev, notional, budget, asked > budget⟩
  if notional < minNotionalUsdt then (none, info)
  else (some { intent with
    allocationPct := 100 * weight
    leverage := notional / (capital * weight) }, info)

/-! ## Entries -/

/-- The text of a mode. -/
def Regime.text : Regime → String
  | .strongBull => "strong_bull"
  | .mildBull => "mild_bull"
  | .uncertain => "uncertain"
  | .bear => "bear"

/-- What `execute` hands to `open_paper_trade`. -/
def R4Intent.openArgs (intent : R4Intent) (variant : R4Variant) (inputs : TickInputs) :
    OpenArgs where
  standingDown := inputs.standingDown
  variantId := variant.id
  capitalUsdt := some variant.capitalUsdt
  paperAccountUsdt := inputs.paperAccountUsdt
  sleeveName := intent.reason.strategy.name
  asset := intent.asset
  direction := .long
  entryPrice := intent.reason.entryPrice
  allocationPct := intent.allocationPct
  leverage := intent.leverage
  scheduledExitDt := some intent.reason.exitDt
  regimeValue := some intent.reason.mode.text
  entryDt := some intent.reason.now
  signalTimeIso := some intent.reason.signalDay
  now := inputs.now

/-- A value of `detail`. -/
inductive WindowDetail
  | decideError
  | decided (status : R4Status)
  | missedWindow
  | entryBlockedStaleInputs
  | budgetExhausted
  | opened
  deriving DecidableEq

/-- What the loop over the windows carries. -/
structure EntryState where
  ledger : Ledger
  detail : Dict R4Strategy WindowDetail := .empty
  /-- The replies of `open_paper_trade`. -/
  opened : List Reply := []
  missed : List R4Strategy := []
  blocked : List (String × Option ℚ) := []
  exhausted : List R4Strategy := []
  evaluated : Bool := false
  error : String := ""
  entryFailed : String := ""

/-- On to the next window, or out of the loop. -/
inductive LoopStep
  | next (s : EntryState)
  | leave (s : EntryState)

def LoopStep.state : LoopStep → EntryState
  | next s => s
  | leave s => s

/-- What the window does with the resized intent. -/
def enterSized (variant : R4Variant) (inputs : TickInputs) (strategy : R4Strategy)
    (s : EntryState) :
    Option R4Intent → LoopStep
  | none => .next { s with
      detail := s.detail.set strategy .budgetExhausted
      exhausted := s.exhausted ++ [strategy] }
  | some resized =>
    match (Call.openTrade (resized.openArgs variant inputs)).run inputs.env s.ledger with
    | (ledger, .raised e) => .leave { s with ledger := ledger, entryFailed := inputs.repr e }
    | (ledger, reply) => .next { s with
        ledger := ledger
        detail := s.detail.set strategy .opened
        opened := s.opened ++ [reply] }

/-- The window once its first intent is in time and the inputs are fresh. -/
def enterIntent (variant : R4Variant) (inputs : TickInputs) (strategy : R4Strategy)
    (intent : R4Intent) (s : EntryState) : LoopStep :=
  let openGross := s.ledger.openGrossUsdt variant.id
  enterSized variant inputs strategy s (sizeIntent intent variant.capitalUsdt openGross).1

/-- The body of the loop over the windows. -/
def enterWindow (config : R4Config) (variant : R4Variant) (inputs : TickInputs)
    (strategy : R4Strategy) (s : EntryState) : LoopStep :=
  if ¬ config.enabled strategy then .next s
  else match inputs.decide strategy s.ledger with
  | .error e => .leave { s with detail := s.detail.set strategy .decideError, error := e }
  | .ok (intents, status) =>
    let s := { s with
      detail := s.detail.set strategy (.decided status)
      evaluated := s.evaluated || status ≠ .noInputs }
    match intents with
    | [] => .next s
    | intent :: _ =>
      let late := inputs.now - windowOpenFor strategy intent.scheduledExitDt
      if late > lateEntryMax then .next { s with
        detail := s.detail.set strategy .missedWindow
        missed := s.missed ++ [strategy] }
      else match inputs.staleEntry strategy with
      | .error e => .leave { s with entryFailed := e }
      | .ok [] => enterIntent variant inputs strategy intent s
      | .ok stale => .next { s with
          detail := s.detail.set strategy .entryBlockedStaleInputs
          blocked := stale }

/-- The loop over the windows. -/
def entryLoop (config : R4Config) (variant : R4Variant) (inputs : TickInputs) :
    List R4Strategy → EntryState → EntryState
  | [], s => s
  | strategy :: strategies, s =>
    match enterWindow config variant inputs strategy s with
    | .next s => entryLoop config variant inputs strategies s
    | .leave s => s

/-! ## The report -/

inductive TickStatus
  | staleMgmtInputs
  | noAction
  | opened
  | entryBlockedStaleInputs
  | missedWindow
  | budgetExhausted
  | decideError
  | entryError
  deriving DecidableEq

inductive HbStatus
  | ok
  | degraded
  | error
  deriving DecidableEq

/-- What a tick returns. -/
structure TickOut where
  status : TickStatus
  stale : List (String × Option ℚ) := []
  detail : Dict R4Strategy WindowDetail := .empty
  hbStatus : HbStatus := .ok
  hbNote : String := ""
  evaluated : Bool
  opened : List Reply := []
  signal : Bool := false
  backstopClosed : List String := []
  backstopRefused : List String := []
  stopped : List String := []

/-- `"; ".join(n for n in notes if n)` -/
def joinNotes (notes : List String) : String := "; ".intercalate (notes.filter (· ≠ ""))

/-- `f"{sorted(tables)}"` -/
def sortedText (tables : List (String × Option ℚ)) : String :=
  let names := (tables.map Prod.fst).insertionSort (· ≤ ·)
  "[" ++ ", ".intercalate (names.map fun name => "'" ++ name ++ "'") ++ "]"

/-- What became of the windows, before the errors. -/
def EntryState.outcome (s : EntryState) (today : String) : TickOut :=
  let out : TickOut := { status := .noAction, detail := s.detail, evaluated := s.evaluated }
  if s.opened ≠ [] then { out with status := .opened, opened := s.opened, signal := true }
  else if s.blocked ≠ [] then { out with
    status := .entryBlockedStaleInputs
    hbStatus := .degraded
    hbNote := "entry tables stale: " ++ sortedText s.blocked }
  else if s.missed ≠ [] then { out with
    status := .missedWindow
    hbNote := "missed_window " ++ ",".intercalate (s.missed.map (·.name)) ++ " " ++ today }
  else if s.exhausted ≠ [] then { out with status := .budgetExhausted }
  else out

/-- An error in front of the notes there are. -/
def TickOut.fail (out : TickOut) (status : TickStatus) (error : String) : TickOut :=
  if error = "" then out
  else { out with status := status, hbStatus := .error, hbNote := joinNotes [error, out.hbNote] }

def EntryState.report (s : EntryState) (today : String) : TickOut :=
  ((s.outcome today).fail .decideError s.error).fail .entryError s.entryFailed

/-! ## Exits -/

/-- The open trades as the backstop selects them. -/
def openTradesOf (variantId : String) (d : Ledger) : OpenTrades where
  rows := (d.openOf variantId).map fun r =>
    ⟨r.id, r.asset, r.exitTime.elim .missing fun t => .aware t 0, r.strategy⟩
  nodup := by
    rw [List.map_map]
    exact d.ids_nodup.sublist (List.filter_sublist.map _)

/-- `trades.close_perp_trade` at the default costs. -/
def r4Close (inputs : TickInputs) (tid : String) (price : ℚ) (d : Ledger) :
    Except TradeError Unit × Ledger :=
  let a : PerpCloseArgs := { tradeId := tid, exitPrice := price, now := inputs.closeNow tid }
  match (Call.closePerp a).run inputs.env d with
  | (d, .raised e) => (.error e, d)
  | (d, _) => (.ok (), d)

/-- The closers of `_exits`: one for every window in `ENABLED`, on or off. -/
def r4Backstop (inputs : TickInputs) : BackstopEnv Ledger TradeError where
  closers strategy :=
    if strategy ∈ r4Strategies.map (·.name) then some fun tid price _ d =>
      r4Close inputs tid price d
    else none
  getCurrentPrice asset d := (inputs.currentPrice asset d, d)
  repr := inputs.repr

/-- The loop of `_stop_sweep`. -/
def stopSweepLoop (inputs : TickInputs) (pct : ℚ) :
    List TradeRow → List String → Ledger → Except TradeError (List String) × Ledger
  | [], closed, d => (.ok closed, d)
  | r :: rows, closed, d =>
    match inputs.currentPrice r.asset d, r.entryPrice with
    | .error e, _ => (.error e, d)
    | .ok (some price), some entry =>
      if price ≤ entry * (1 - pct) then
        match r4Close inputs r.id price d with
        | (.error e, d) => (.error e, d)
        | (.ok _, d) => stopSweepLoop inputs pct rows (closed ++ [r.id]) d
      else stopSweepLoop inputs pct rows closed d
    | _, _ => stopSweepLoop inputs pct rows closed d

/-- `_stop_sweep` -/
def stopSweep (config : R4Config) (variant : R4Variant) (inputs : TickInputs) (d : Ledger) :
    Except TradeError (List String) × Ledger :=
  match config.stopLossPct with
  | none => (.ok [], d)
  | some pct => stopSweepLoop inputs pct (d.openOf variant.id) [] d

/-- `_exits`; only the sweep may raise. -/
def r4Exits (config : R4Config) (variant : R4Variant) (inputs : TickInputs) (out : TickOut)
    (d : Ledger) : Except TradeError TickOut × Ledger :=
  let opens := openTradesOf variant.id d
  let (result, s) := closeDueTrades (r4Backstop inputs) variant.id inputs.exitsNow opens d
  let out : TickOut := match result with
    | .ok closed => { out with backstopClosed := closed }
    | .error e => { out with
        hbStatus := .error
        hbNote := joinNotes [out.hbNote, (e.message.take 300).toString]
        backstopRefused := (e.refused ++ e.errors).map (·.1)
        backstopClosed := e.closed }
  match stopSweep config variant inputs s.world with
  | (.error e, d) => (.error e, d)
  | (.ok stopped, d) => (.ok { out with stopped := stopped }, d)

/-! ## The tick -/

def r4Tick (config : R4Config) (variant : R4Variant) (inputs : TickInputs) (d : Ledger) :
    Except TradeError TickOut × Ledger :=
  if inputs.staleMgmt ≠ [] then
    -- the exits too: a close may price off the table that is stale
    (.ok {
      status := .staleMgmtInputs
      stale := inputs.staleMgmt
      hbStatus := .degraded
      evaluated := false
      hbNote := "mgmt tables stale: " ++ sortedText inputs.staleMgmt }, d)
  else
    let s : EntryState := match inputs.lookupError with
      | some error => { ledger := d, error := error }
      | none => entryLoop config variant inputs r4Strategies { ledger := d }
    r4Exits config variant inputs (s.report (dateIso (utcDate inputs.now))) s.ledger

/-- The ledger after the ticks of a process. -/
def runTicks (config : R4Config) (variant : R4Variant) (ticks : List TickInputs)
    (d : Ledger) : Ledger :=
  ticks.foldl (fun d inputs => (r4Tick config variant inputs d).2) d

/-! ## A backstop with nothing to do -/

theorem foldl_trade_of_not_due {σ ε : Type} {env : BackstopEnv σ ε} {now : Time}
    {rows : List BackstopRow} (h : ∀ t ∈ rows, ¬ t.Due now) (s : BackstopState σ) :
    rows.foldl (BackstopState.trade env now) s = s := by
  induction rows generalizing s with
  | nil => rfl
  | cons t rows ih =>
    rw [List.foldl_cons, trade_of_not_due (h t List.mem_cons_self)]
    exact ih (fun t ht => h t (List.mem_cons_of_mem _ ht)) s

/-- Before the exit time of every open trade the backstop leaves the ledger alone. -/
theorem closeDueTrades_of_not_due {env : BackstopEnv Ledger TradeError} {variantId : String}
    {now : Time} {d : Ledger} (h : ∀ r ∈ d.openOf variantId, ∀ t ∈ r.exitTime, now < t) :
    (closeDueTrades env variantId now (openTradesOf variantId d) d).2.world = d := by
  refine congrArg BackstopState.world (foldl_trade_of_not_due ?_ _)
  rintro t ht ⟨exitDt, hexit, hle⟩
  obtain ⟨r, hr, rfl⟩ := List.mem_map.mp ht
  dsimp only at hexit
  cases htime : r.exitTime with
  | none =>
    rw [htime] at hexit
    cases hexit
  | some t =>
    rw [htime] at hexit
    have hexit : t - 0 = exitDt := Option.some.inj hexit
    rw [Int.sub_zero] at hexit
    exact absurd hle (not_le.mpr (hexit ▸ h r hr t htime))

end P300
