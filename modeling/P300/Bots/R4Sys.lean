import P300.Bots.R4Budget
import P300.Ledger.Closes
import P300.Lib.Trace

/-!
# The R4 bot over its runs

The process ticks with the deciders of the sleeve, and other processes open, resize and flip trades
of other variants, and close any trade. The process remembers nothing between two ticks, so that a
restart is no step. Through all that a trade of the variant is that of one window of the calendar,
opened by a tick that began in the first five minutes of the window, and no window has two.
-/

namespace P300

open Ledger

/-! ## Decisions -/

/-- `_has_trade_for_day` -/
def hasTradeForDay (variantId : String) (d : Ledger) (s : R4Strategy) (dayIso : String) : Bool :=
  d.trades.any fun r => r.strategyVariant = variantId ∧ r.strategy = s.name ∧
    ∃ t ∈ r.actualEntryTime, dateIso (utcDate t) = dayIso

/-- The intent is that of the window of the strategy that is open. -/
structure R4Strategy.Enters (s : R4Strategy) (inputs : DecideInputs) (now : Time)
    (i : R4Intent) : Prop where
  on : OpensOn s (utcDate now)
  opened : (r4Window s (utcDate now) s.entryHour).openUtc ≤ now
  closes : now < (r4Window s (utcDate now) s.entryHour).closeUtc
  first : inputs.hasTradeForDay s (dateIso (utcDate now)) = false
  strategy : i.reason.strategy = s
  asset : i.asset = s.asset
  clock : i.reason.now = now
  exit : i.reason.exitDt = (r4Window s (utcDate now) s.entryHour).closeUtc ∧
    i.scheduledExitDt = (r4Window s (utcDate now) s.entryHour).closeUtc

section decisions

variable {inputs : DecideInputs} {options : DecideOptions} {now exitDt : Time} {i : R4Intent}

theorem mem_r4Decide {asset weightKey : String} {s : R4Strategy}
    (h : i ∈ (r4Decide inputs options now asset s weightKey exitDt).1) :
    i.reason.strategy = s ∧ i.asset = asset ∧ i.reason.now = now ∧ i.reason.exitDt = exitDt ∧
      i.scheduledExitDt = exitDt := by
  rw [r4Decide] at h
  split at h
  · cases h
  dsimp only at h
  split at h
  · cases h
  split at h
  · cases h
  split at h
  · cases h
  · rw [List.mem_singleton.mp h]
    exact ⟨rfl, rfl, rfl, rfl, rfl⟩

theorem enters_decideBtc (h : i ∈ (decideBtc inputs options now).1) :
    R4Strategy.btc.Enters inputs now i := by
  rw [decideBtc] at h
  split at h
  · cases h
  next hday =>
  split at h
  · cases h
  next hweek =>
  split at h
  · cases h
  next hearly =>
  split at h
  · cases h
  next hlate =>
  split at h
  · cases h
  next hfirst =>
  obtain ⟨hs, ha, hn, hx, hx'⟩ := mem_r4Decide h
  have hclose : (r4Window .btc (utcDate now) R4Strategy.btc.entryHour).closeUtc =
      atHour (utcDate now) R4Strategy.btc.exitHour := closeUtc_eq .btc _
  exact {
    on := ⟨not_not.mp hday, not_lt.mp hweek⟩
    opened := atHour_le_iff.mpr (not_lt.mp hearly)
    closes := by
      rw [hclose]
      exact lt_atHour_iff.mpr (not_le.mp hlate)
    first := Bool.eq_false_iff.mpr hfirst
    strategy := hs, asset := ha, clock := hn
    exit := by
      rw [hclose]
      exact ⟨hx, hx'⟩ }

theorem enters_decideEth (h : i ∈ (decideEth inputs options now).1) :
    R4Strategy.eth.Enters inputs now i := by
  rw [decideEth] at h
  dsimp only at h
  split at h
  · cases h
  next hday =>
  split at h
  · cases h
  next hweek =>
  split at h
  · cases h
  next hearly =>
  split at h
  · cases h
  next hfirst =>
  obtain ⟨i₀, hi₀, rfl⟩ := List.mem_map.mp h
  obtain ⟨hs, ha, hn, hx, hx'⟩ := mem_r4Decide hi₀
  have hclose : (r4Window .eth (utcDate now) R4Strategy.eth.entryHour).closeUtc =
      atHour (utcDate now + 1) R4Strategy.eth.exitHour := closeUtc_eq .eth _
  exact {
    on := ⟨not_not.mp hday, not_lt.mp hweek⟩
    opened := atHour_le_iff.mpr (not_lt.mp hearly)
    closes := by
      rw [hclose]
      exact lt_atHour_succ now (by decide)
    first := Bool.eq_false_iff.mpr hfirst
    strategy := hs, asset := ha, clock := hn
    exit := by
      rw [hclose]
      exact ⟨hx, hx'⟩ }

theorem enters_r4V2Decide {asset weightKey : String} {s : R4Strategy}
    (hv2 : s = .btcV2 ∨ s = .ethV2) (hasset : asset = s.asset)
    (h : i ∈ (r4V2Decide inputs options now asset s weightKey).1) : s.Enters inputs now i := by
  rw [r4V2Decide] at h
  dsimp only at h
  split at h
  · cases h
  next hday =>
  split at h
  · cases h
  next hweek =>
  split at h
  · cases h
  next hearly =>
  split at h
  · cases h
  next hlate =>
  split at h
  · cases h
  next hfirst =>
  obtain ⟨i₀, hi₀, rfl⟩ := List.mem_map.mp h
  obtain ⟨hs, ha, hn, hx, hx'⟩ := mem_r4Decide hi₀
  have hhour : s.entryHour = 4 := by rcases hv2 with rfl | rfl <;> rfl
  have hclose : (r4Window s (utcDate now) s.entryHour).closeUtc = atHour (utcDate now) 14 := by
    rw [closeUtc_eq]
    rcases hv2 with rfl | rfl <;> rfl
  exact {
    on := by
      have hon := And.intro (List.mem_pair.mp (not_not.mp hday)) (not_lt.mp hweek)
      rcases hv2 with rfl | rfl <;> exact hon
    opened := by
      rw [hhour]
      exact atHour_le_iff.mpr (not_lt.mp hearly)
    closes := by
      rw [hclose]
      exact lt_atHour_iff.mpr (not_le.mp hlate)
    first := Bool.eq_false_iff.mpr hfirst
    strategy := hs, asset := ha.trans hasset, clock := hn
    exit := by
      rw [hclose]
      exact ⟨hx, hx'⟩ }

/-- What a decide function enters is the window of its strategy that is open, for the first time
that day. -/
theorem enters_decide {s : R4Strategy} (h : i ∈ (s.decide inputs options now).1) :
    s.Enters inputs now i := by
  cases s with
  | btc => exact enters_decideBtc h
  | eth => exact @enters_decideEth inputs options now i h
  | btcV2 => exact enters_r4V2Decide (.inl rfl) rfl h
  | ethV2 => exact enters_r4V2Decide (.inr rfl) rfl h

end decisions

/-! ## The system -/

/-- What a tick reads besides the ledger. -/
structure R4Reads where
  /-- `stale_tables(MGMT_TABLES)` -/
  staleMgmt : List (String × Option ℚ) := []
  now : Time
  /-- `repr` of what the lookup of the deciders raises. -/
  lookupError : Option String := none
  /-- The clock of a decide function. -/
  decideNow : R4Strategy → Time := fun _ => now
  /-- `repr` of what a decide function raises. -/
  decideError : R4Strategy → Option String := fun _ => none
  /-- `jplus_inputs.today_inputs()`, with the leverage -/
  todayInputs : R4Strategy → Option (TodayInputs × ℚ)
  /-- `price_feed.get_current_price` of the decide functions. -/
  entryPrice : String → Option ℚ
  /-- `stale_tables(ENTRY_TABLES)`, or `repr` of what it raises. -/
  staleEntry : R4Strategy → Except String (List (String × Option ℚ)) := fun _ => .ok []
  /-- `instance_guard._reason` -/
  standingDown : Option String := none
  /-- `trade_db.get_config("paper_account_usdt")` -/
  paperAccountUsdt : Option ℚ := some 10_000
  env : Env := quietEnv
  /-- The clock of the backstop. -/
  exitsNow : Time := now
  /-- The clock of the closes. -/
  closeNow : Time := exitsNow
  /-- `price_feed.get_current_price` of the exits. -/
  currentPrice : String → Except TradeError (Option ℚ) := fun _ => .ok none
  /-- `repr` of an exception -/
  repr : TradeError → String := fun _ => "error"

namespace R4Reads

variable (reads : R4Reads)

/-- The clock does not go back during the tick. -/
def Ordered : Prop :=
  (∀ s ∈ r4Strategies, reads.now ≤ reads.decideNow s ∧ reads.decideNow s ≤ reads.exitsNow) ∧
  reads.exitsNow ≤ reads.closeNow

instance decidableOrdered : Decidable reads.Ordered := inferInstanceAs (Decidable (_ ∧ _))

theorem Ordered.now_le_exitsNow {reads : R4Reads} (h : reads.Ordered) :
    reads.now ≤ reads.exitsNow :=
  (h.1 .btc List.mem_cons_self).1.trans (h.1 .btc List.mem_cons_self).2

/-- A tick with the deciders of the sleeve. -/
def inputs (variantId : String) : TickInputs where
  staleMgmt := reads.staleMgmt
  now := reads.now
  lookupError := reads.lookupError
  decide s d :=
    match reads.decideError s with
    | some e => .error e
    | none => .ok (s.decide {
        hasTradeForDay := hasTradeForDay variantId d
        todayInputs := reads.todayInputs s
        currentPrice := reads.entryPrice } {} (reads.decideNow s))
  staleEntry := reads.staleEntry
  standingDown := reads.standingDown
  paperAccountUsdt := reads.paperAccountUsdt
  env := reads.env
  exitsNow := reads.exitsNow
  closeNow _ := reads.closeNow
  currentPrice asset _ := reads.currentPrice asset
  repr := reads.repr

end R4Reads

/-- The entries of a tick on fresh inputs. -/
def r4Entries (config : R4Config) (variant : R4Variant) (inputs : TickInputs) (d : Ledger) :
    EntryState :=
  match inputs.lookupError with
  | some error => { ledger := d, error }
  | none => entryLoop config variant inputs r4Strategies { ledger := d }

structure R4Sys where
  ledger : Ledger
  clock : Time
  /-- When a tick began, and what `open_paper_trade` returned in it. -/
  log : List (Time × Reply) := []

inductive R4Act
  | tick (reads : R4Reads)
  /-- A call of another process, which returns at `now`. -/
  | other (env : Env) (c : Call) (now : Time)

namespace R4Sys

variable (config : R4Config) (variant : R4Variant) (s : R4Sys)

/-- What a tick has opened. -/
def openedBy (reads : R4Reads) : List (Time × Reply) :=
  if reads.staleMgmt ≠ [] then []
  else (r4Entries config variant (reads.inputs variant.id) s.ledger).opened.map fun reply =>
    (reads.now, reply)

/-- After a tick. -/
def tick (reads : R4Reads) : R4Sys where
  ledger := (r4Tick config variant (reads.inputs variant.id) s.ledger).2
  clock := reads.closeNow
  log := s.log ++ openedBy config variant s reads

def step : R4Act → Option R4Sys
  | .tick reads =>
    if s.clock ≤ reads.now ∧ reads.Ordered then some (s.tick config variant reads) else none
  | .other env c now =>
    if c.variantOf s.ledger ≠ some variant.id ∧ s.clock ≤ now ∧ c.eventTime ≤ now then
      some { s with ledger := (c.run env s.ledger).1, clock := now }
    else none

def run (acts : List R4Act) : Option R4Sys := Trace.run (step config variant) s acts

end R4Sys

/-! ## Trades of windows -/

/-- What `open_paper_trade` gets for the window of the strategy on the day. -/
structure OpenArgs.ForWindow (a : OpenArgs) (x : R4Variant) (s : R4Strategy) (day : Int) :
    Prop where
  variant : a.variantId = x.id
  position : a.sleeveName = s.name ∧ a.asset = s.asset ∧ a.direction = .long
  on : OpensOn s day
  exit : a.scheduledExitDt = some (r4Window s day s.entryHour).closeUtc
  date : utcDate a.entryTime = day
  within : (r4Window s day s.entryHour).openUtc ≤ a.entryTime ∧
    a.entryTime < (r4Window s day s.entryHour).closeUtc
  started : a.now ≤ a.entryTime ∧ a.now ≤ (r4Window s day s.entryHour).openUtc + lateEntryMax

/-- The trade `r` was opened with the arguments, and has been left alone while it is open. -/
structure OpenArgs.Row (a : OpenArgs) (d : Ledger) (r : TradeRow) : Prop where
  entry : r.toTradeEntry = (a.row r.id).toTradeEntry
  live : r.status = .open_ → r = a.row r.id ∧ d.eventsOf r.id = [(a.event r.id).row a.now 0]

namespace R4Sys

/-- The trades of the variant are those of windows. -/
structure Windowed (x : R4Variant) (s : R4Sys) : Prop where
  consistent : s.ledger.Consistent
  trades : ∀ r ∈ s.ledger.trades, r.strategyVariant = x.id →
    ∃ (a : OpenArgs) (strategy : R4Strategy) (day : Int), a.ForWindow x strategy day ∧
      a.Row s.ledger r ∧ a.entryTime ≤ s.clock ∧ (a.now, .id r.id) ∈ s.log
  apart : ∀ r ∈ s.ledger.trades, r.strategyVariant = x.id → ∀ r' ∈ s.ledger.trades,
    r'.strategyVariant = x.id → r.strategy = r'.strategy → r ≠ r' →
    r.actualEntryTime.map utcDate ≠ r'.actualEntryTime.map utcDate

variable {x : R4Variant} {s : R4Sys} {d : Ledger} {clock : Time} {a : OpenArgs}
  {strategy : R4Strategy} {day : Int} {tid : String} {env : Env}

/-- What holds is kept while trades of the variant are closed only. -/
theorem Windowed.closes (H : s.Windowed x) (hledger : s.ledger.OnlyCloses x.id d)
    (hclock : s.clock ≤ clock) : Windowed x { s with ledger := d, clock } where
  consistent := hledger.consistent
  trades r hr hv := by
    rcases hledger.rows hr hv with ⟨hr₀, hev⟩ | ⟨hstatus, r₀, hr₀, hentry⟩
    · obtain ⟨a, strategy, day, ha, hrow, hle, hlog⟩ := H.trades r hr₀ hv
      refine ⟨a, strategy, day, ha, ⟨hrow.entry, fun ho => ?_⟩, hle.trans hclock, hlog⟩
      exact ⟨(hrow.live ho).1, hev.trans (hrow.live ho).2⟩
    · have hid : r₀.id = r.id := congrArg TradeEntry.id hentry
      obtain ⟨a, strategy, day, ha, hrow, hle, hlog⟩ := H.trades r₀ hr₀
        ((congrArg TradeEntry.strategyVariant hentry).trans hv)
      rw [hid] at hlog
      refine ⟨a, strategy, day, ha, ⟨?_, fun ho => absurd ho hstatus⟩, hle.trans hclock, hlog⟩
      rw [← hid, ← hentry]
      exact hrow.entry
  apart r hr hv r' hr' hv' hstrategy hne := by
    have hold : ∀ r ∈ d.trades, r.strategyVariant = x.id →
        ∃ r₀ ∈ s.ledger.trades, r₀.toTradeEntry = r.toTradeEntry := by
      intro r hr hv
      rcases hledger.rows hr hv with ⟨hr, -⟩ | ⟨-, r₀, hr₀, hentry⟩
      · exact ⟨r, hr, rfl⟩
      · exact ⟨r₀, hr₀, hentry⟩
    obtain ⟨r₀, hr₀, hentry⟩ := hold r hr hv
    obtain ⟨r₀', hr₀', hentry'⟩ := hold r' hr' hv'
    have hne₀ : r₀ ≠ r₀' := by
      intro heq
      have hid : r.id = r'.id := by
        rw [← congrArg TradeEntry.id hentry, ← congrArg TradeEntry.id hentry', heq]
      exact hne (eq_of_id hr hr' hid)
    have h := H.apart r₀ hr₀ ((congrArg TradeEntry.strategyVariant hentry).trans hv) r₀' hr₀'
      ((congrArg TradeEntry.strategyVariant hentry').trans hv')
      ((congrArg TradeEntry.strategy hentry).trans
        (hstrategy.trans (congrArg TradeEntry.strategy hentry').symm)) hne₀
    rwa [show r₀.actualEntryTime = r.actualEntryTime from
      congrArg TradeEntry.actualEntryTime hentry,
      show r₀'.actualEntryTime = r'.actualEntryTime from
      congrArg TradeEntry.actualEntryTime hentry'] at h

/-- More in the log. -/
theorem Windowed.append (H : s.Windowed x) (log : List (Time × Reply)) (hclock : s.clock ≤ clock) :
    Windowed x { s with clock, log := s.log ++ log } where
  consistent := H.consistent
  trades r hr hv := by
    obtain ⟨a, strategy, day, ha, hrow, hle, hlog⟩ := H.trades r hr hv
    exact ⟨a, strategy, day, ha, hrow, hle.trans hclock, List.mem_append_left _ hlog⟩
  apart := H.apart

/-- A new trade, of a window that has none. -/
theorem Windowed.opened (H : s.Windowed x) (ha : a.ForWindow x strategy day)
    (hfirst : ∀ r ∈ s.ledger.trades, r.strategyVariant = x.id → r.strategy = strategy.name →
      r.actualEntryTime.map utcDate ≠ some day)
    (hentry : a.entryTime ≤ clock) (hclock : s.clock ≤ clock)
    (hrun : (Call.openTrade a).run env s.ledger = (d, .id tid)) :
    Windowed x { ledger := d, clock, log := s.log ++ [(a.now, .id tid)] } := by
  have hlog := H.append [(a.now, .id tid)] hclock
  obtain ⟨-, rfl⟩ | ⟨hk, htid, hledger⟩ := openTrade_eq_id H.consistent.minted hrun
  · exact hlog
  have hu : s.ledger.Unused (a.row tid) :=
    H.consistent.minted.unused htid (by rintro k ⟨⟩; exact hk)
  have hconsistent : d.Consistent := by
    have hc : ((Call.openTrade a).run env s.ledger).1.Consistent := H.consistent.run _
    rwa [hrun] at hc
  have hmem {r : TradeRow} (hr : r ∈ d.trades) : r ∈ s.ledger.trades ∨ r = a.row tid := by
    rw [hledger, hu.spawn_trades, List.mem_append, List.mem_singleton] at hr
    exact hr
  have hevents (t : String) : d.eventsOf t =
      if tid = t then [(a.event tid).row a.now 0] else s.ledger.eventsOf t :=
    hledger ▸ hu.eventsOf_spawn rfl t
  have hname : (a.row tid).strategy = strategy.name := by
    change a.sleeveName.toUpper = _
    rw [ha.position.1, toUpper_name]
  have hdate : (a.row tid).actualEntryTime.map utcDate = some day := congrArg some ha.date
  refine ⟨hconsistent, fun r hr hv => ?_, fun r hr hv r' hr' hv' hstrategy hne => ?_⟩
  · rcases hmem hr with hr | rfl
    · have hnew : tid ∉ s.ledger.trades.map (·.id) := hu.id
      have hne : tid ≠ r.id := fun h => hnew (h ▸ List.mem_map_of_mem hr)
      obtain ⟨a₀, strategy₀, day₀, ha₀, hrow, hle, hin⟩ := H.trades r hr hv
      refine ⟨a₀, strategy₀, day₀, ha₀, ⟨hrow.entry, fun ho => ?_⟩, hle.trans hclock,
        List.mem_append_left _ hin⟩
      exact ⟨(hrow.live ho).1, ((hevents r.id).trans (if_neg hne)).trans (hrow.live ho).2⟩
    · exact ⟨a, strategy, day, ha, ⟨rfl, fun _ => ⟨rfl, (hevents tid).trans (if_pos rfl)⟩⟩, hentry,
        List.mem_append_right _ (List.mem_singleton_self _)⟩
  · rcases hmem hr with hr | rfl
    · rcases hmem hr' with hr' | rfl
      · exact H.apart r hr hv r' hr' hv' hstrategy hne
      · rw [hdate]
        exact hfirst r hr hv (hstrategy.trans hname)
    · rcases hmem hr' with hr' | rfl
      · rw [hdate]
        exact (hfirst r' hr' hv' (hstrategy.symm.trans hname)).symm
      · exact absurd rfl hne

end R4Sys

/-! ## A tick -/

section exits

variable {config : R4Config} {variant : R4Variant} {inputs : TickInputs} {P : Ledger → Prop}

theorem keeps_stopSweepLoop (hclose : ∀ tid price d, P d → P (r4Close inputs tid price d).2)
    (pct : ℚ) (rows : List TradeRow) (closed : List String) {d : Ledger} (h : P d) :
    P (stopSweepLoop inputs pct rows closed d).2 := by
  induction rows generalizing closed d with
  | nil => exact h
  | cons r rows ih =>
    rw [stopSweepLoop]
    split
    · exact h
    · next price entry _ _ =>
      split
      · have hr := hclose r.id price d h
        split
        · next heq => rwa [heq] at hr
        · next heq =>
          rw [heq] at hr
          exact ih _ hr
      · exact ih _ h
    · exact ih _ h

theorem keeps_r4Backstop (hclose : ∀ tid price d, P d → P (r4Close inputs tid price d).2)
    (rows : OpenTrades) {d : Ledger} (h : P d) :
    P (closeDueTrades (r4Backstop inputs) variant.id inputs.exitsNow rows d).2.world := by
  refine BackstopState.keeps_foldl (fun _ _ h => h) ?_ h _
  intro strategy close hcloser tid price reason world h
  rw [r4Backstop] at hcloser
  dsimp only at hcloser
  split at hcloser
  · obtain rfl := Option.some.inj hcloser
    exact hclose tid price world h
  · cases hcloser

theorem r4Exits_ledger (out : TickOut) (d : Ledger) :
    (r4Exits config variant inputs out d).2 = (stopSweep config variant inputs (closeDueTrades
      (r4Backstop inputs) variant.id inputs.exitsNow (openTradesOf variant.id d) d).2.world).2 := by
  rw [r4Exits]
  dsimp only
  split
  · next heq => rw [heq]
  · next heq => rw [heq]

/-- What every close keeps, the exits keep. -/
theorem keeps_r4Exits (hclose : ∀ tid price d, P d → P (r4Close inputs tid price d).2)
    (out : TickOut) {d : Ledger} (h : P d) : P (r4Exits config variant inputs out d).2 := by
  have hbackstop : P (closeDueTrades (r4Backstop inputs) variant.id inputs.exitsNow
      (openTradesOf variant.id d) d).2.world := keeps_r4Backstop hclose _ h
  rw [r4Exits_ledger, stopSweep]
  split
  · exact hbackstop
  · exact keeps_stopSweepLoop hclose _ _ _ hbackstop

theorem onlyCloses_r4Close {v : String} {d : Ledger} (hd : d.Consistent) (tid : String)
    (price : ℚ) : d.OnlyCloses v (r4Close inputs tid price d).2 := by
  have hrun : d.OnlyCloses v ((Call.closePerp {
      tradeId := tid, exitPrice := price, now := inputs.closeNow tid }).run inputs.env d).1 :=
    .run hd _ fun h => by cases h
  rw [r4Close]
  split
  · next heq => rwa [heq] at hrun
  · next heq => rwa [heq] at hrun

theorem onlyCloses_r4Exits {v : String} {d : Ledger} (hd : d.Consistent) (out : TickOut) :
    d.OnlyCloses v (r4Exits config variant inputs out d).2 :=
  keeps_r4Exits (fun tid price _ h => h.trans (onlyCloses_r4Close h.consistent tid price)) out
    (.refl v hd)

theorem r4Tick_ledger (d : Ledger) : (r4Tick config variant inputs d).2 =
    if inputs.staleMgmt ≠ [] then d
    else (r4Exits config variant inputs
      ((r4Entries config variant inputs d).report (dateIso (utcDate inputs.now)))
      (r4Entries config variant inputs d).ledger).2 := by
  rw [r4Tick]
  split
  · rfl
  · rfl

end exits

namespace R4Sys

variable {config : R4Config} {x : R4Variant} {s s' : R4Sys} {reads : R4Reads}
  {strategy : R4Strategy} {st : EntryState}

/-- In the middle of the loop over the windows. -/
def entering (s : R4Sys) (reads : R4Reads) (st : EntryState) : R4Sys where
  ledger := st.ledger
  clock := reads.exitsNow
  log := s.log ++ st.opened.map fun reply => (reads.now, reply)

theorem hasTradeForDay_eq_false {v dayIso : String} {d : Ledger}
    (h : hasTradeForDay v d strategy dayIso = false) {r : TradeRow} (hr : r ∈ d.trades)
    (hv : r.strategyVariant = v) (hs : r.strategy = strategy.name) :
    r.actualEntryTime.map (fun t => dateIso (utcDate t)) ≠ some dayIso := by
  intro hday
  obtain ⟨t, ht, hiso⟩ := Option.map_eq_some_iff.mp hday
  exact absurd (decide_eq_true ⟨hv, hs, t, ht, hiso⟩) (List.any_eq_false.mp h r hr)

theorem mem_r4Strategies (s : R4Strategy) : s ∈ r4Strategies := by cases s <;> decide

section args

variable {inputs : DecideInputs} {i resized : R4Intent} {capital openGross : ℚ}

theorem reason_sizeIntent (hsize : (sizeIntent i capital openGross).1 = some resized) :
    resized.reason = i.reason ∧ resized.asset = i.asset := by
  rw [sizeIntent] at hsize
  split at hsize
  · cases hsize
  · obtain rfl := Option.some.inj hsize
    exact ⟨rfl, rfl⟩

theorem entryTime_openArgs (hi : strategy.Enters inputs (reads.decideNow strategy) i)
    (hsize : (sizeIntent i capital openGross).1 = some resized) :
    (resized.openArgs x (reads.inputs x.id)).entryTime = reads.decideNow strategy := by
  change resized.reason.now = _
  rw [(reason_sizeIntent hsize).1, hi.clock]

/-- The arguments of the window that is entered. -/
theorem forWindow_openArgs (hi : strategy.Enters inputs (reads.decideNow strategy) i)
    (hord : reads.Ordered)
    (hlate : ¬ reads.now - windowOpenFor strategy i.scheduledExitDt > lateEntryMax)
    (hsize : (sizeIntent i capital openGross).1 = some resized) :
    (resized.openArgs x (reads.inputs x.id)).ForWindow x strategy
      (utcDate (reads.decideNow strategy)) := by
  obtain ⟨hreason, hasset⟩ := reason_sizeIntent hsize
  have hentry := @entryTime_openArgs x reads strategy _ _ _ _ _ hi hsize
  have hopen : windowOpenFor strategy i.scheduledExitDt =
      (r4Window strategy (utcDate (reads.decideNow strategy)) strategy.entryHour).openUtc := by
    rw [hi.exit.2]
    exact add_sub_cancel_right _ _
  exact {
    variant := rfl
    position := by
      refine ⟨?_, hasset.trans hi.asset, rfl⟩
      change resized.reason.strategy.name = _
      rw [hreason, hi.strategy]
    on := hi.on
    exit := by
      change some resized.reason.exitDt = _
      rw [hreason, hi.exit.1]
    date := by rw [hentry]
    within := by
      rw [hentry]
      exact ⟨hi.opened, hi.closes⟩
    started := by
      rw [hentry]
      refine ⟨(hord.1 strategy (mem_r4Strategies strategy)).1, ?_⟩
      rw [hopen] at hlate
      exact sub_le_iff_le_add'.mp (not_lt.mp hlate) }

end args

theorem Windowed.enterSized (H : (s.entering reads st).Windowed x) (hord : reads.Ordered)
    {i resized : R4Intent} {openGross : ℚ}
    (hi : strategy.Enters { hasTradeForDay := hasTradeForDay x.id st.ledger
                            todayInputs := reads.todayInputs strategy
                            currentPrice := reads.entryPrice } (reads.decideNow strategy) i)
    (hlate : ¬ reads.now - windowOpenFor strategy i.scheduledExitDt > lateEntryMax)
    (hsize : (sizeIntent i x.capitalUsdt openGross).1 = some resized) :
    (s.entering reads
      (P300.enterSized x (reads.inputs x.id) strategy st (some resized)).state).Windowed x := by
  have ha := @forWindow_openArgs x reads strategy _ i resized _ _ hi hord hlate hsize
  rw [P300.enterSized]
  split
  · next heq =>
    obtain rfl := openTrade_raised H.consistent.minted heq fun tid h => by cases h
    exact H
  · next ledger reply _ heq =>
    have hsplit : s.log ++ (st.opened ++ [reply]).map (fun reply => (reads.now, reply)) =
        (s.entering reads st).log ++ [(reads.now, reply)] := by
      rw [List.map_append, ← List.append_assoc]
      rfl
    have hstate : s.entering reads { st with
        ledger, detail := st.detail.set strategy .opened, opened := st.opened ++ [reply] } =
        { ledger, clock := reads.exitsNow
          log := (s.entering reads st).log ++ [(reads.now, reply)] } := by
      rw [entering, hsplit]
    rw [LoopStep.state, hstate]
    by_cases hid : ∃ tid, reply = .id tid
    · obtain ⟨tid, rfl⟩ := hid
      refine H.opened ha (fun r hr hv hs hday => ?_) ?_ le_rfl heq
      · refine hasTradeForDay_eq_false hi.first hr hv hs ?_
        obtain ⟨t, ht, hdate⟩ := Option.map_eq_some_iff.mp hday
        rw [ht, ← hdate]
        rfl
      · rw [entryTime_openArgs hi hsize]
        exact (hord.1 strategy (mem_r4Strategies strategy)).2
    · obtain rfl := openTrade_raised H.consistent.minted heq fun tid h => hid ⟨tid, h⟩
      exact H.append [(reads.now, reply)] le_rfl

/-- The step lemma: whatever a window does, the trades are those of windows. -/
theorem Windowed.enterWindow (H : (s.entering reads st).Windowed x) (hord : reads.Ordered) :
    (s.entering reads
      (P300.enterWindow config x (reads.inputs x.id) strategy st).state).Windowed x := by
  rw [P300.enterWindow]
  split
  · exact H
  have hdecide : (reads.inputs x.id).decide strategy st.ledger =
      match reads.decideError strategy with
      | some e => .error e
      | none => .ok (strategy.decide {
          hasTradeForDay := hasTradeForDay x.id st.ledger
          todayInputs := reads.todayInputs strategy
          currentPrice := reads.entryPrice } {} (reads.decideNow strategy)) := rfl
  split
  · exact H
  next intents status heq =>
  rw [hdecide] at heq
  dsimp only
  split
  · exact H
  next i rest =>
  split
  · exact H
  next hlate =>
  split
  · exact H
  · rw [enterIntent]
    dsimp only
    have hi : i ∈ (strategy.decide {
        hasTradeForDay := hasTradeForDay x.id st.ledger
        todayInputs := reads.todayInputs strategy
        currentPrice := reads.entryPrice } {} (reads.decideNow strategy)).1 := by
      split at heq
      · cases heq
      · rw [Except.ok.inj heq]
        exact List.mem_cons_self
    cases hsize : (sizeIntent i x.capitalUsdt (st.ledger.openGrossUsdt x.id)).1 with
    | none => exact H
    | some resized =>
      have H' : (s.entering reads { st with
          detail := st.detail.set strategy (.decided status)
          evaluated := st.evaluated || status ≠ .noInputs }).Windowed x := H
      exact H'.enterSized hord (enters_decide hi) hlate hsize
  · exact H

/-- The windows of one tick, each on the ledger that the ones before it leave. -/
theorem Windowed.entryLoop (H : (s.entering reads st).Windowed x) (hord : reads.Ordered)
    (strategies : List R4Strategy) :
    (s.entering reads
      (P300.entryLoop config x (reads.inputs x.id) strategies st)).Windowed x := by
  induction strategies generalizing st with
  | nil => exact H
  | cons strategy strategies ih =>
    have hstep := @Windowed.enterWindow config x s reads strategy st H hord
    rw [P300.entryLoop]
    split
    · next heq =>
      rw [heq] at hstep
      exact ih hstep
    · next heq =>
      rw [heq] at hstep
      exact hstep

/-- After the entries of a tick on fresh inputs. -/
theorem Windowed.entries (H : s.Windowed x) (hclock : s.clock ≤ reads.now)
    (hord : reads.Ordered) :
    (s.entering reads (r4Entries config x (reads.inputs x.id) s.ledger)).Windowed x := by
  have hstart : (s.entering reads { ledger := s.ledger }).Windowed x :=
    H.append [] (hclock.trans hord.now_le_exitsNow)
  rw [r4Entries]
  split
  · exact hstart
  · exact hstart.entryLoop hord r4Strategies

theorem Windowed.tick (H : s.Windowed x) (hclock : s.clock ≤ reads.now) (hord : reads.Ordered) :
    (s.tick config x reads).Windowed x := by
  rw [R4Sys.tick, r4Tick_ledger, openedBy]
  by_cases hstale : (reads.inputs x.id).staleMgmt ≠ []
  · rw [if_pos hstale, if_pos (show reads.staleMgmt ≠ [] from hstale)]
    exact H.append [] ((hclock.trans hord.now_le_exitsNow).trans hord.2)
  · rw [if_neg hstale, if_neg (show ¬ reads.staleMgmt ≠ [] from hstale)]
    have hentries := @Windowed.entries config x s reads H hclock hord
    exact hentries.closes (onlyCloses_r4Exits hentries.consistent _) hord.2

theorem Windowed.step (H : s.Windowed x) {act : R4Act} (h : s.step config x act = some s') :
    s'.Windowed x := by
  cases act with
  | tick reads =>
    obtain ⟨⟨hclock, hord⟩, h⟩ := Option.ite_none_right_eq_some.mp h
    cases h
    exact H.tick hclock hord
  | other env c now =>
    obtain ⟨⟨hother, hclock, -⟩, h⟩ := Option.ite_none_right_eq_some.mp h
    cases h
    exact H.closes (.run H.consistent c hother) hclock

theorem windowed_start {d : Ledger} (hd : d.Consistent)
    (h : ∀ r ∈ d.trades, r.strategyVariant ≠ x.id) (clock : Time) :
    Windowed x { ledger := d, clock } where
  consistent := hd
  trades r hr hv := absurd hv (h r hr)
  apart r hr hv := absurd hv (h r hr)

variable {acts : List R4Act} {d : Ledger} {clock : Time}

theorem windowed_run (hd : d.Consistent) (hnew : ∀ r ∈ d.trades, r.strategyVariant ≠ x.id)
    (h : run config x { ledger := d, clock } acts = some s) : s.Windowed x :=
  Trace.invariant (fun _ _ _ H ha => H.step ha) (windowed_start hd hnew clock) h

end R4Sys

namespace R4Sys

variable {config : R4Config} {x : R4Variant} {s : R4Sys} {acts : List R4Act} {d : Ledger}
  {clock : Time} {r r' : TradeRow} {w : R4Window} {day : Int}

/-- A tick in the first week of August 2026, some minutes after the hour. -/
def augustTick (day hour minute : Int) : R4Reads where
  now := atHour day hour + minute * 60_000_000
  todayInputs _ := some (⟨20_669, .uncertain, none, false,
    [("r4_eth", 15 / 100), ("r4_eth_v2", 15 / 100)], []⟩, 2)
  entryPrice _ := some 2000
  currentPrice _ := .ok (some 2100)

/-- The window of Tuesday evening is entered once; on Wednesday that of the morning is entered
beside it and closed by schedule, and that of the evening before is closed too. -/
def augustActs : List R4Act := [
  .tick (augustTick 20_669 20 1), .tick (augustTick 20_669 20 2), .tick (augustTick 20_670 4 1),
  .tick (augustTick 20_670 14 0), .tick (augustTick 20_670 20 0)]

end R4Sys

end P300
