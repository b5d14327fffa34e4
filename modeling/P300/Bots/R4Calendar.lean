import P300.Bots.R4Windows
import P300.Dispatch.Reconcile
import P300.Regime.Today

/-!
# The three calendars of R4

The calendar of the R4 windows is written three times: in the decide functions of the sleeve, which
look at the clock, in `windows_on`, and in the return functions of the research, which look at the
hours of a price map. They agree on every instant and on every map.
-/

namespace P300

/-! ## The decide functions -/

inductive R4Status
  | notCalendarDay
  | notWk12
  | beforeOpenWindow
  | afterCloseWindow
  | notTuesday
  | nextDayNotWk12
  | alreadyOpen
  | noInputs
  | regimeZeroWeight (mode : Regime)
  | noPrice
  | decided (weight stackedLev : ℚ)
  deriving DecidableEq

/-- The status of a gate of the calendar. -/
def R4Status.IsCalendar (status : R4Status) : Prop :=
  status ∈ [notCalendarDay, notWk12, beforeOpenWindow, afterCloseWindow, notTuesday, nextDayNotWk12]

instance (status : R4Status) : Decidable status.IsCalendar := inferInstanceAs (Decidable (_ ∈ _))

/-- The reason of an intent, by its keys. -/
structure R4Reason where
  sleeve : R4Strategy
  mode : Regime
  volLev : ℚ
  innerLev : ℚ
  gated : Bool
  trigger : String
  entryPrice : ℚ
  strategy : R4Strategy
  exitDt : Time
  now : Time
  /-- `_signal_day` -/
  signalDay : String
  tradeDay : Option String := none
  window : Option String := none

/-- `dispatch.Intent` as `_r4_decide` fills it in. -/
structure R4Intent where
  asset : String
  direction : Direction
  allocationPct : ℚ
  leverage : ℚ
  conviction : Int
  priority : ℚ
  reason : R4Reason
  scheduledExitDt : Time

/-- What a decide function reads for its variant. -/
structure DecideInputs where
  /-- `_has_trade_for_day` -/
  hasTradeForDay : R4Strategy → String → Bool
  /-- `jplus_inputs.today_inputs()`, with the leverage `lev` -/
  todayInputs : Option (TodayInputs × ℚ)
  /-- `price_feed.get_current_price` -/
  currentPrice : String → Option ℚ

/-- The optional arguments of a decide function; of the gate its `leverage_mult`. -/
structure DecideOptions where
  weightPct : Option ℚ := none
  gate : Option ℚ := none
  volScalar : Option ℚ := none
  priority : ℚ := 100

def r4InnerLevUngated : ℚ := 5 / 2

def r4InnerLevGated : ℚ := 1

/-- The weight of the regime, unless one is given. -/
def DecideOptions.weight (options : DecideOptions) (ti : TodayInputs) (weightKey : String) : ℚ :=
  match options.weightPct with
  | some pct => pct / 100
  | none => (ti.weights.lookup weightKey).getD 0

def DecideOptions.innerLev (options : DecideOptions) (ti : TodayInputs) : ℚ :=
  match options.gate with
  -- ungated on purpose: the supplied gate carries its own multiplier
  | some leverageMult => r4InnerLevUngated * leverageMult
  | none => if ti.gated then r4InnerLevGated else r4InnerLevUngated

/-- `_r4_decide` -/
def r4Decide (inputs : DecideInputs) (options : DecideOptions) (now : Time) (asset : String)
    (strategy : R4Strategy) (weightKey : String) (exitDt : Time) : List R4Intent × R4Status :=
  match inputs.todayInputs with
  | none => ([], .noInputs)
  | some (ti, lev) =>
    let weight := options.weight ti weightKey
    if weight ≤ 0 then ([], .regimeZeroWeight ti.mode)
    else
      let innerLev := options.innerLev ti
      let volLev := options.volScalar.getD lev
      let stackedLev := innerLev * volLev
      match inputs.currentPrice asset with
      | none => ([], .noPrice)
      | some price =>
        if price ≤ 0 then ([], .noPrice)
        else
          let reason : R4Reason := {
            sleeve := strategy
            mode := ti.mode
            volLev := volLev
            innerLev := innerLev
            gated := ti.gated
            trigger := "calendar_open"
            entryPrice := price
            strategy := strategy
            exitDt := exitDt
            now := now
            signalDay := dateIso (utcDate now) }
          ([⟨asset, .long, weight * 100, stackedLev, 100, options.priority, reason, exitDt⟩],
            .decided weight stackedLev)

/-- `decide_btc` -/
def decideBtc (inputs : DecideInputs) (options : DecideOptions) (now : Time) :
    List R4Intent × R4Status :=
  let today := utcDate now
  if weekday today ≠ 0 then ([], .notCalendarDay)
  else if dayOfMonth today > 14 then ([], .notWk12)
  else if hourOf now < R4Strategy.btc.entryHour then ([], .beforeOpenWindow)
  else if hourOf now ≥ R4Strategy.btc.exitHour then ([], .afterCloseWindow)
  else if inputs.hasTradeForDay .btc (dateIso today) then ([], .alreadyOpen)
  else r4Decide inputs options now "BTC" .btc "r4_btc" (atHour today R4Strategy.btc.exitHour)

/-- `decide_eth`, which passes none of its options on. -/
def decideEth (inputs : DecideInputs) (_options : DecideOptions) (now : Time) :
    List R4Intent × R4Status :=
  let today := utcDate now
  if weekday today ≠ 1 then ([], .notTuesday)
  else
    let tomorrow := today + 1
    if dayOfMonth tomorrow > 14 then ([], .nextDayNotWk12)
    else if hourOf now < R4Strategy.eth.entryHour then ([], .beforeOpenWindow)
    else if inputs.hasTradeForDay .eth (dateIso today) then ([], .alreadyOpen)
    else
      let (intents, status) :=
        r4Decide inputs {} now "ETH" .eth "r4_eth" (atHour tomorrow R4Strategy.eth.exitHour)
      (intents.map fun intent =>
        { intent with reason := { intent.reason with tradeDay := some (dateIso tomorrow) } },
        status)

/-- `_r4_v2_decide` -/
def r4V2Decide (inputs : DecideInputs) (options : DecideOptions) (now : Time) (asset : String)
    (strategy : R4Strategy) (weightKey : String) : List R4Intent × R4Status :=
  let today := utcDate now
  if weekday today ∉ [(2 : Int), 4] then ([], .notCalendarDay)
  else if dayOfMonth today > 14 then ([], .notWk12)
  else if hourOf now < 4 then ([], .beforeOpenWindow)
  else if hourOf now ≥ 14 then ([], .afterCloseWindow)
  else if inputs.hasTradeForDay strategy (dateIso today) then ([], .alreadyOpen)
  else
    let (intents, status) := r4Decide inputs options now asset strategy weightKey (atHour today 14)
    (intents.map fun intent =>
      { intent with reason := { intent.reason with window := some "wed_fri_wk1-2_04-14_v2" } },
      status)

/-- `decide_btc_v2` -/
def decideBtcV2 (inputs : DecideInputs) (options : DecideOptions) (now : Time) :
    List R4Intent × R4Status :=
  r4V2Decide inputs options now "BTC" .btcV2 "r4_btc_v2"

/-- `decide_eth_v2` -/
def decideEthV2 (inputs : DecideInputs) (options : DecideOptions) (now : Time) :
    List R4Intent × R4Status :=
  r4V2Decide inputs options now "ETH" .ethV2 "r4_eth_v2"

/-- `deciders()` of the runner. -/
def R4Strategy.decide : R4Strategy → DecideInputs → DecideOptions → Time → List R4Intent × R4Status
  | btc => decideBtc
  | eth => decideEth
  | btcV2 => decideBtcV2
  | ethV2 => decideEthV2

/-! ## The return functions -/

/-- The bars of the hours, by the ISO text of the date and the hour: open and close. -/
structure PriceMap where
  bars : Dict (String × Int) (ℚ × ℚ)
  iso : ∀ key ∈ bars.keys, ∃ date, InRange date ∧ key.1 = dateIso date

/-- The return from the open of the entry bar to that of the exit bar, less the cost. -/
def netReturn (byHour : PriceMap) (costBp entry : ℚ) (exitKey : String × Int) : Option ℚ :=
  match byHour.bars.get? exitKey with
  | none => none
  | some exitBar =>
    if entry ≤ 0 then none
    else
      let gross := (exitBar.1 - entry) / entry
      some (gross - costBp / 10_000)

/-- The row of a bar in the returns of a window within one day. -/
def dayReturn (entryHour exitHour : Int) (weekdays : List Int) (byHour : PriceMap) (costBp : ℚ)
    (bar : (String × Int) × (ℚ × ℚ)) : Option (String × ℚ) :=
  let ((d, h), (entry, _)) := bar
  if h ≠ entryHour then none
  else match fromisoformat d with
  | none => none
  | some dt =>
    if weekday dt ∉ weekdays ∨ ¬ (1 ≤ dayOfMonth dt ∧ dayOfMonth dt ≤ 14) then none
    else (netReturn byHour costBp entry (d, exitHour)).map fun net => (d, net)

def dayReturns (entryHour exitHour : Int) (weekdays : List Int) (byHour : PriceMap) (costBp : ℚ) :
    Dict String ℚ :=
  Dict.empty.upsert (byHour.bars.entries.filterMap
    (dayReturn entryHour exitHour weekdays byHour costBp))

/-- `r4_btc_returns` -/
def r4BtcReturns : PriceMap → ℚ → Dict String ℚ := dayReturns 6 18 [0]

/-- `r4_btc_v2_returns` -/
def r4BtcV2Returns : PriceMap → ℚ → Dict String ℚ := dayReturns 4 14 [2, 4]

/-- `r4_eth_v2_returns` -/
def r4EthV2Returns : PriceMap → ℚ → Dict String ℚ := dayReturns 4 14 [2, 4]

/-- The row of a bar in the returns of the ETH window, which are keyed by the day of the exit. -/
def ethReturn (byHour : PriceMap) (costBp : ℚ) (bar : (String × Int) × (ℚ × ℚ)) :
    Option (String × ℚ) :=
  let ((d, h), (entry, _)) := bar
  if h ≠ 20 then none
  else match fromisoformat d with
  | none => none
  | some dt =>
    if weekday dt ≠ 1 then none
    else
      let wedDt := dt + 1
      if weekday wedDt ≠ 2 ∨ ¬ (1 ≤ dayOfMonth wedDt ∧ dayOfMonth wedDt ≤ 14) then none
      else (netReturn byHour costBp entry (dateIso wedDt, 20)).map fun net => (dateIso wedDt, net)

/-- `r4_eth_returns` -/
def r4EthReturns (byHour : PriceMap) (costBp : ℚ) : Dict String ℚ :=
  Dict.empty.upsert (byHour.bars.entries.filterMap (ethReturn byHour costBp))

/-- The row of a bar in the returns of a strategy. -/
def R4Strategy.returnRow : R4Strategy → PriceMap → ℚ → (String × Int) × (ℚ × ℚ) →
    Option (String × ℚ)
  | btc => dayReturn 6 18 [0]
  | eth => ethReturn
  | btcV2 => dayReturn 4 14 [2, 4]
  | ethV2 => dayReturn 4 14 [2, 4]

/-- The returns of a strategy. -/
def R4Strategy.returns : R4Strategy → PriceMap → ℚ → Dict String ℚ
  | btc => r4BtcReturns
  | eth => r4EthReturns
  | btcV2 => r4BtcV2Returns
  | ethV2 => r4EthV2Returns

/-! ## The gates -/

/-- The decision passes the gates of the calendar if `p`, and what it enters exits at `exitDt`. -/
structure Gated (result : List R4Intent × R4Status) (p : Prop) (exitDt : Time) : Prop where
  passes : ¬ result.2.IsCalendar ↔ p
  exits : ∀ intent ∈ result.1, intent.scheduledExitDt = exitDt ∧ intent.reason.exitDt = exitDt

section Gates

variable {inputs : DecideInputs} {options : DecideOptions} {now exitDt : Time} {p : Prop}

theorem Gated.closed {status : R4Status} (hstatus : status.IsCalendar) (hp : ¬ p) :
    Gated ([], status) p exitDt :=
  ⟨iff_of_false (not_not.mpr hstatus) hp, fun _ h => by cases h⟩

theorem Gated.idle {status : R4Status} (hstatus : ¬ status.IsCalendar) (hp : p) :
    Gated ([], status) p exitDt :=
  ⟨iff_of_true hstatus hp, fun _ h => by cases h⟩

theorem Gated.r4Decide {asset weightKey : String} {strategy : R4Strategy} (hp : p) :
    Gated (r4Decide inputs options now asset strategy weightKey exitDt) p exitDt := by
  rw [P300.r4Decide]
  cases inputs.todayInputs with
  | none => exact .idle (by decide) hp
  | some ti =>
    dsimp only
    split
    · exact .idle (by simp [R4Status.IsCalendar]) hp
    cases inputs.currentPrice asset with
    | none => exact .idle (by decide) hp
    | some price =>
      dsimp only
      split
      · exact .idle (by decide) hp
      · refine ⟨iff_of_true (by simp [R4Status.IsCalendar]) hp, fun intent hintent => ?_⟩
        rw [List.mem_singleton.mp hintent]
        exact ⟨rfl, rfl⟩

/-- Changes to the reason that leave the exit. -/
theorem Gated.map {result : List R4Intent × R4Status} (h : Gated result p exitDt)
    {f : R4Intent → R4Intent} (hf : ∀ intent, (f intent).scheduledExitDt = intent.scheduledExitDt ∧
      (f intent).reason.exitDt = intent.reason.exitDt) : Gated (result.1.map f,
        result.2) p exitDt := by
  refine ⟨h.passes, fun intent hintent => ?_⟩
  obtain ⟨intent', hintent', rfl⟩ := List.mem_map.mp hintent
  rw [(hf intent').1, (hf intent').2]
  exact h.exits intent' hintent'

theorem decideBtc_gated : Gated (decideBtc inputs options now)
    (OpensOn .btc (utcDate now) ∧ 6 ≤ hourOf now ∧ hourOf now < 18) (atHour (utcDate now) 18) := by
  rw [decideBtc]
  split
  · next hwd => exact .closed (by decide) fun h => hwd h.1.1
  split
  · next hdom => exact .closed (by decide) fun h => hdom.not_ge h.1.2
  split
  · next hearly => exact .closed (by decide) fun h => hearly.not_ge h.2.1
  split
  · next hlate => exact .closed (by decide) fun h => hlate.not_gt h.2.2
  next hwd hdom hearly hlate =>
  have hp : OpensOn .btc (utcDate now) ∧ 6 ≤ hourOf now ∧ hourOf now < 18 :=
    ⟨⟨not_not.mp hwd, not_lt.mp hdom⟩, not_lt.mp hearly, not_le.mp hlate⟩
  split
  · exact .idle (by decide) hp
  · exact .r4Decide hp

theorem decideEth_gated : Gated (decideEth inputs options now)
    (OpensOn .eth (utcDate now) ∧ 20 ≤ hourOf now) (atHour (utcDate now + 1) 20) := by
  rw [decideEth]
  dsimp only
  split
  · next hwd => exact .closed (by decide) fun h => hwd h.1.1
  split
  · next hdom => exact .closed (by decide) fun h => hdom.not_ge h.1.2
  split
  · next hearly => exact .closed (by decide) fun h => hearly.not_ge h.2
  next hwd hdom hearly =>
  have hp : OpensOn .eth (utcDate now) ∧ 20 ≤ hourOf now :=
    ⟨⟨not_not.mp hwd, not_lt.mp hdom⟩, not_lt.mp hearly⟩
  split
  · exact .idle (by decide) hp
  · exact (Gated.r4Decide hp).map fun _ => ⟨rfl, rfl⟩

theorem r4V2Decide_gated {asset weightKey : String} {strategy : R4Strategy} :
    Gated (r4V2Decide inputs options now asset strategy weightKey)
      (((weekday (utcDate now) = 2 ∨ weekday (utcDate now) = 4) ∧ dayOfMonth (utcDate now) ≤ 14) ∧
        4 ≤ hourOf now ∧ hourOf now < 14) (atHour (utcDate now) 14) := by
  rw [r4V2Decide]
  dsimp only
  split
  · next hwd => exact .closed (by decide) fun h => hwd (List.mem_pair.mpr h.1.1)
  split
  · next hdom => exact .closed (by decide) fun h => hdom.not_ge h.1.2
  split
  · next hearly => exact .closed (by decide) fun h => hearly.not_ge h.2.1
  split
  · next hlate => exact .closed (by decide) fun h => hlate.not_gt h.2.2
  next hwd hdom hearly hlate =>
  have hp : ((weekday (utcDate now) = 2 ∨ weekday (utcDate now) = 4) ∧
      dayOfMonth (utcDate now) ≤ 14) ∧
      4 ≤ hourOf now ∧ hourOf now < 14 :=
    ⟨⟨List.mem_pair.mp (not_not.mp hwd), not_lt.mp hdom⟩, not_lt.mp hearly, not_le.mp hlate⟩
  split
  · exact .idle (by decide) hp
  · exact (Gated.r4Decide hp).map fun _ => ⟨rfl, rfl⟩

/-- The gates of a decision ask whether a window of the strategy is open that was opened today. -/
theorem decide_gated (s : R4Strategy) : Gated (s.decide inputs options now)
    (∃ w ∈ windowsOn (utcDate now), w.strategy = s ∧ w.openUtc ≤ now ∧ now < w.closeUtc)
    (r4Window s (utcDate now) s.entryHour).closeUtc := by
  have hwindow : (∃ w ∈ windowsOn (utcDate now), w.strategy = s ∧ w.openUtc ≤ now ∧
      now < w.closeUtc) ↔
      OpensOn s (utcDate now) ∧ s.entryHour ≤ hourOf now ∧
        now < (r4Window s (utcDate now) s.entryHour).closeUtc := by
    constructor
    · rintro ⟨w, hw, rfl, hopen, hclose⟩
      obtain ⟨s, hon, rfl⟩ := mem_windowsOn.mp hw
      exact ⟨hon, atHour_le_iff.mp hopen, hclose⟩
    · rintro ⟨hon, hhour, hclose⟩
      exact ⟨_, mem_windowsOn.mpr ⟨s, hon, rfl⟩, rfl, atHour_le_iff.mpr hhour, hclose⟩
  rw [hwindow, closeUtc_eq]
  cases s with
  | btc => rw [if_neg (by decide), lt_atHour_iff]; exact decideBtc_gated
  | eth =>
    have hbefore : now < atHour (utcDate now + 1) 20 := lt_atHour_succ now (by decide)
    have hgated : Gated (decideEth inputs options now) _ _ := decideEth_gated
    rw [if_pos rfl]
    exact ⟨hgated.passes.trans ⟨fun h => ⟨h.1, h.2, hbefore⟩, fun h => ⟨h.1, h.2.1⟩⟩, hgated.exits⟩
  | btcV2 => rw [if_neg (by decide), lt_atHour_iff]; exact r4V2Decide_gated
  | ethV2 => rw [if_neg (by decide), lt_atHour_iff]; exact r4V2Decide_gated

end Gates

/-! ## The days with a return -/

/-- The key of the bar that starts at an instant. -/
def barKey (t : Time) : String × Int := (dateIso (utcDate t), hourOf t)

/-- Both bars are there with a positive entry price, and this is the return. -/
def PriceMap.Earns (byHour : PriceMap) (costBp : ℚ) (openKey closeKey : String × Int)
    (v : ℚ) : Prop :=
  ∃ entry exit, byHour.bars.get? openKey = some entry ∧ byHour.bars.get? closeKey = some exit ∧
    0 < entry.1 ∧ v = (exit.1 - entry.1) / entry.1 - costBp / 10_000

/-- The day on which a window closes. -/
def closeDay (s : R4Strategy) (day : Int) : Int := if s = .eth then day + 1 else day

section Returns

variable {byHour : PriceMap} {costBp v v' : ℚ} {k : String} {day : Int} {s : R4Strategy}

theorem PriceMap.Earns.unique {openKey closeKey : String × Int}
    (h : byHour.Earns costBp openKey closeKey v) (h' : byHour.Earns costBp openKey closeKey v') :
    v = v' := by
  obtain ⟨entry, exit, hentry, hexit, -, rfl⟩ := h
  obtain ⟨entry', exit', hentry', hexit', -, rfl⟩ := h'
  rw [hentry] at hentry'
  rw [hexit] at hexit'
  cases hentry'
  cases hexit'
  rfl

theorem netReturn_eq_some {entry : ℚ} {exitKey : String × Int} :
    netReturn byHour costBp entry exitKey = some v ↔ ∃ exit, byHour.bars.get? exitKey = some exit ∧
      0 < entry ∧ v = (exit.1 - entry) / entry - costBp / 10_000 := by
  rw [netReturn]
  cases byHour.bars.get? exitKey with
  | none => simp
  | some exit =>
    dsimp only
    split
    · next hle => exact ⟨fun h => (by cases h), fun ⟨_, _, hpos, _⟩ => absurd hpos (not_lt.mpr hle)⟩
    · next hpos =>
      refine ⟨fun h => ⟨exit, rfl, not_le.mp hpos, (Option.some.inj h).symm⟩, ?_⟩
      rintro ⟨exit', hexit, -, rfl⟩
      cases hexit
      rfl

/-- A bar of the map is at a date, and its text reads as this date. -/
theorem PriceMap.date_of_mem {bar : (String × Int) × (ℚ × ℚ)} (h : bar ∈ byHour.bars.entries) :
    ∃ date, InRange date ∧ bar.1.1 = dateIso date ∧ fromisoformat bar.1.1 = some date := by
  obtain ⟨date, hrange, hdate⟩ := byHour.iso bar.1 (List.mem_map_of_mem h)
  exact ⟨date, hrange, hdate, by rw [hdate, fromisoformat_dateIso hrange]⟩

theorem one_le_dayOfMonth (date : Int) : 1 ≤ dayOfMonth date := (civil_bounds date).2.2.1

/-- The rows of a return function that takes the bars of one hour on some days. -/
theorem mem_barRows {f : (String × Int) × (ℚ × ℚ) → Option (String × ℚ)} {entryHour : Int}
    {onDay : Int → Prop} {key : Int → String} (exitKey : Int → String × Int)
    (hf : ∀ date h bar, InRange date → (f ((dateIso date, h), bar) = some (k, v) ↔
      h = entryHour ∧ onDay date ∧
        (netReturn byHour costBp bar.1 (exitKey date)).map (fun net => (key date, net)) =
          some (k, v))) :
    (k, v) ∈ byHour.bars.entries.filterMap f ↔ ∃ day, InRange day ∧ onDay day ∧ k = key day ∧
      byHour.Earns costBp (dateIso day, entryHour) (exitKey day) v := by
  rw [List.mem_filterMap]
  constructor
  · rintro ⟨⟨⟨d, h⟩, entry⟩, hbar, hrow⟩
    obtain ⟨date, hrange, hd, -⟩ := PriceMap.date_of_mem hbar
    have hget := (byHour.bars.mem_entries_iff).mp hbar
    dsimp only at hd
    subst hd
    obtain ⟨rfl, hday, hnet⟩ := (hf date h entry hrange).mp hrow
    obtain ⟨net, hnet, heq⟩ := Option.map_eq_some_iff.mp hnet
    cases heq
    obtain ⟨exit, hexit, hpos, hv⟩ := netReturn_eq_some.mp hnet
    exact ⟨date, hrange, hday, rfl, entry, exit, hget, hexit, hpos, hv⟩
  · rintro ⟨day, hrange, hday, rfl, entry, exit, hentry, hexit, hpos, hv⟩
    refine ⟨((dateIso day, entryHour), entry), (byHour.bars.mem_entries_iff).mpr hentry,
      (hf day entryHour entry hrange).mpr ⟨rfl, hday, ?_⟩⟩
    rw [netReturn_eq_some.mpr ⟨exit, hexit, hpos, hv⟩]
    rfl

theorem dayReturn_eq_some {date h entryHour exitHour : Int} {weekdays : List Int} {bar : ℚ × ℚ}
    (hrange : InRange date) :
    dayReturn entryHour exitHour weekdays byHour costBp ((dateIso date, h), bar) = some (k, v) ↔
      h = entryHour ∧ (weekday date ∈ weekdays ∧ dayOfMonth date ≤ 14) ∧
        (netReturn byHour costBp bar.1 (dateIso date, exitHour)).map
          (fun net => (dateIso date, net)) =
          some (k, v) := by
  simp only [dayReturn, fromisoformat_dateIso hrange, one_le_dayOfMonth, true_and, ← not_and_or]
  by_cases hhour : h = entryHour
  · by_cases hday : weekday date ∈ weekdays ∧ dayOfMonth date ≤ 14 <;> simp [hhour, hday]
  · simp [hhour]

theorem ethReturn_eq_some {date h : Int} {bar : ℚ × ℚ} (hrange : InRange date) :
    ethReturn byHour costBp ((dateIso date, h), bar) = some (k, v) ↔
      h = 20 ∧ (weekday date = 1 ∧ dayOfMonth (date + 1) ≤ 14) ∧
        (netReturn byHour costBp bar.1 (dateIso (date + 1), 20)).map
          (fun net => (dateIso (date + 1), net)) =
          some (k, v) := by
  simp only [ethReturn, fromisoformat_dateIso hrange, one_le_dayOfMonth, true_and]
  by_cases hhour : h = 20
  · by_cases hwd : weekday date = 1
    · have hnext : weekday (date + 1) = 2 := by
        rw [weekday] at hwd ⊢
        omega
      by_cases hdom : dayOfMonth (date + 1) ≤ 14 <;> simp [hhour, hwd, hnext, hdom]
    · simp [hhour, hwd]
  · simp [hhour]

theorem returns_eq (s : R4Strategy) (byHour : PriceMap) (costBp : ℚ) : s.returns byHour costBp =
    Dict.empty.upsert (byHour.bars.entries.filterMap (s.returnRow byHour costBp)) := by
  cases s <;> rfl

/-- The days on which a strategy has a row. -/
def Trades (s : R4Strategy) (byHour : PriceMap) (costBp : ℚ) (k : String) (v : ℚ)
    (day : Int) : Prop :=
  InRange day ∧ OpensOn s day ∧ k = dateIso (closeDay s day) ∧
    byHour.Earns costBp (dateIso day, s.entryHour) (dateIso (closeDay s day), s.exitHour) v

theorem returnRow_eq_some {date h : Int} {bar : ℚ × ℚ} (hrange : InRange date) :
    s.returnRow byHour costBp ((dateIso date, h), bar) = some (k, v) ↔ h = s.entryHour ∧
      OpensOn s date ∧
      (netReturn byHour costBp bar.1 (dateIso (closeDay s date), s.exitHour)).map
        (fun net => (dateIso (closeDay s date), net)) = some (k, v) := by
  cases s with
  | btc =>
    rw [R4Strategy.returnRow, dayReturn_eq_some hrange, OpensOn, List.mem_singleton, closeDay,
      if_neg (by decide)]
    rfl
  | eth =>
    rw [R4Strategy.returnRow, ethReturn_eq_some hrange, OpensOn, closeDay, if_pos rfl]
    rfl
  | btcV2 | ethV2 =>
    rw [R4Strategy.returnRow, dayReturn_eq_some hrange, OpensOn, List.mem_pair, closeDay,
      if_neg (by decide)]
    rfl

theorem mem_returnRows : (k, v) ∈ byHour.bars.entries.filterMap (s.returnRow byHour costBp) ↔
    ∃ day, Trades s byHour costBp k v day :=
  mem_barRows (fun day => (dateIso (closeDay s day), s.exitHour)) fun _ _ _ hrange =>
    returnRow_eq_some hrange

/-- A Tuesday is not the last day of the calendar. -/
theorem inRange_closeDay (hrange : InRange day) (hon : OpensOn s day) :
    InRange (closeDay s day) := by
  rw [closeDay]
  split
  · next hs =>
    subst hs
    have hwd : (day + 3) % 7 = 1 := hon.1
    rw [inRange_iff] at hrange ⊢
    omega
  · exact hrange

/-- The key and the map leave one value. -/
theorem Trades.unique {day' : Int} (h : Trades s byHour costBp k v day)
    (h' : Trades s byHour costBp k v' day') : v = v' := by
  obtain ⟨hrange, hon, rfl, hearns⟩ := h
  obtain ⟨hrange', hon', heq, hearns'⟩ := h'
  have hclose := dateIso_inj (inRange_closeDay hrange hon) (inRange_closeDay hrange' hon') heq
  have hday : day = day' := by
    rw [closeDay, closeDay] at hclose
    split at hclose <;> omega
  subst hday
  exact hearns.unique hearns'

theorem returns_get?_iff :
    (s.returns byHour costBp).get? k = some v ↔ ∃ day, Trades s byHour costBp k v day := by
  rw [returns_eq, Dict.get?_upsert_iff, mem_returnRows]
  intro k v v' h h'
  obtain ⟨day, hday⟩ := mem_returnRows.mp h
  obtain ⟨day', hday'⟩ := mem_returnRows.mp h'
  exact hday.unique hday'

/-- The bars of a window's ends are those of its day and of the day on which it closes. -/
theorem barKey_window (s : R4Strategy) (day : Int) :
    barKey (r4Window s day s.entryHour).openUtc = (dateIso day, s.entryHour) ∧
      utcDate (r4Window s day s.entryHour).closeUtc = closeDay s day ∧
      barKey (r4Window s day s.entryHour).closeUtc = (dateIso (closeDay s day), s.exitHour) := by
  have hentry : 0 ≤ s.entryHour ∧ s.entryHour < 24 := by cases s <;> decide
  have hexit : 0 ≤ s.exitHour ∧ s.exitHour < 24 := by cases s <;> decide
  rw [closeUtc_eq, ← closeDay, barKey, barKey, utcDate_atHour hexit.1 hexit.2,
    hourOf_atHour hexit.1 hexit.2]
  refine ⟨?_, rfl, rfl⟩
  change (dateIso (utcDate (atHour day s.entryHour)), hourOf (atHour day s.entryHour)) = _
  rw [utcDate_atHour hentry.1 hentry.2, hourOf_atHour hentry.1 hentry.2]

end Returns

/-- The three calendars agree: a decision passes the gates if and only if a window listed for the
day is open, and schedules its close; and a strategy has a return for the days on which a window of
it closes that has both bars with a positive entry price. -/
theorem r4_calendars_agree (s : R4Strategy) :
    (∀ inputs options now,
      (¬ (s.decide inputs options now).2.IsCalendar ↔
        ∃ w ∈ windowsOn (utcDate now), w.strategy = s ∧ w.openUtc ≤ now ∧ now < w.closeUtc) ∧
      ∀ w ∈ windowsOn (utcDate now), w.strategy = s → windowOpenFor s w.closeUtc = w.openUtc ∧
        ∀ intent ∈ (s.decide inputs options now).1,
          intent.scheduledExitDt = w.closeUtc ∧ intent.reason.exitDt = w.closeUtc) ∧
    ∀ byHour costBp k v, (s.returns byHour costBp).get? k = some v ↔
      ∃ day, InRange day ∧ ∃ w ∈ windowsOn day, w.strategy = s ∧ k = dateIso (utcDate w.closeUtc) ∧
        byHour.Earns costBp (barKey w.openUtc) (barKey w.closeUtc) v := by
  refine ⟨fun inputs options now => ⟨(decide_gated s).passes, fun w hw hs => ?_⟩,
    fun byHour costBp k v => ?_⟩
  · obtain ⟨s', -, rfl⟩ := mem_windowsOn.mp hw
    have hs : s' = s := hs
    subst hs
    exact ⟨add_sub_cancel_right _ _, (decide_gated s').exits⟩
  · rw [returns_get?_iff]
    constructor
    · rintro ⟨day, hrange, hon, rfl, hearns⟩
      obtain ⟨hopen, hdate, hclose⟩ := barKey_window s day
      exact ⟨day, hrange, _, mem_windowsOn.mpr ⟨s, hon, rfl⟩, rfl, by rw [hdate],
        by rwa [hopen, hclose]⟩
    · rintro ⟨day, hrange, w, hw, hs, rfl, hearns⟩
      obtain ⟨s', hon, rfl⟩ := mem_windowsOn.mp hw
      have hs : s' = s := hs
      subst hs
      obtain ⟨hopen, hdate, hclose⟩ := barKey_window s' day
      rw [hopen, hclose] at hearns
      exact ⟨day, hrange, hon, by rw [hdate], hearns⟩

end P300
