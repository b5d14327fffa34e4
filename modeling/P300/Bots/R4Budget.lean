import Mathlib.Algebra.Order.BigOperators.Group.List
import Mathlib.Tactic.FieldSimp
import P300.Bots.R4Tick

/-!
# The co-fire budget of R4

The budget that is left when a window opens is written into a leverage, multiplied back by
`open_paper_trade`, and read from the ledger again for the next window. The three agree: what the
ledger tells after an open is what it told before, more by the notional that was granted. A close
only takes away. So a run that starts within the budget stays within it.
-/

namespace P300

open Ledger

/-- The notional that `open_gross_usdt` counts of a trade. -/
def TradeRow.notionalUsdt (r : TradeRow) : ℚ := (r.currentSizeUsdt <|> r.sizeUsdt).getD 0

/-! ## Closes -/

namespace Ledger

/-- From `d` to `d'` open trades are closed, and nothing else is done to a trade that is open. -/
structure Settles (d d' : Ledger) : Prop where
  entries : d'.entries = d.entries
  openOf : ∀ v, (d'.openOf v).Sublist (d.openOf v)

variable {d d' d'' : Ledger}

theorem Settles.refl (d : Ledger) : d.Settles d := ⟨rfl, fun _ => List.Sublist.refl _⟩

theorem Settles.trans (h : d.Settles d') (h' : d'.Settles d'') : d.Settles d'' :=
  ⟨h'.entries.trans h.entries, fun v => (h'.openOf v).trans (h.openOf v)⟩

/-- An update that closes takes its trade from the open ones and leaves the others. -/
theorem setOpen_filter_sublist {u : TradeUpdate} (hu : ∀ s, (u s).status ≠ .open_) (tid v : String)
    (rows : List TradeRow) :
    ((setOpen tid u rows).filter fun r => r.strategyVariant = v ∧ r.status = .open_).Sublist
      (rows.filter fun r => r.strategyVariant = v ∧ r.status = .open_) := by
  rw [setOpen]
  induction rows with
  | nil => exact List.Sublist.refl _
  | cons r rows ih =>
    rw [List.map_cons]
    by_cases hr : r.id = tid ∧ r.status = .open_
    · have hclosed : ¬ ((r.set u).strategyVariant = v ∧ (r.set u).status = .open_) :=
        fun h => hu _ h.2
      rw [if_pos hr, List.filter_cons, if_neg fun h => hclosed (of_decide_eq_true h)]
      exact ih.trans ((List.sublist_cons_self r rows).filter _)
    · rw [if_neg hr, List.filter_cons, List.filter_cons]
      split
      · exact ih.cons_cons r
      · exact ih

theorem settles_closePerp (env : Env) (d : Ledger) (a : PerpCloseArgs) :
    d.Settles ((Call.closePerp a).run env d).1 := by
  rcases closePerpTrade_run_cases env d a with hrun | hrun
  · rw [Call.run, Call.prog, hrun]
    exact .refl d
  · rw [Call.run, Call.prog]
    generalize ((closePerpTrade env a).run d).1 = d' at hrun
    cases hrun with
    | closed =>
      refine ⟨amend_entries, fun v => ?_⟩
      rw [Ledger.openOf, amend_trades]
      exact setOpen_filter_sublist (fun _ h => by cases h) _ v d.trades

end Ledger

section Exits

variable {inputs : TickInputs} {d d' : Ledger}

theorem settles_r4Close (inputs : TickInputs) (tid : String) (price : ℚ) (d : Ledger) :
    d.Settles (r4Close inputs tid price d).2 := by
  have hrun := settles_closePerp inputs.env d
    { tradeId := tid, exitPrice := price, now := inputs.closeNow tid }
  rw [r4Close]
  split
  · next heq => rwa [heq] at hrun
  · next heq => rwa [heq] at hrun

theorem settles_stopSweepLoop (inputs : TickInputs) (pct : ℚ) (rows : List TradeRow)
    (closed : List String) (d : Ledger) : d.Settles (stopSweepLoop inputs pct rows closed d).2 := by
  induction rows generalizing closed d with
  | nil => exact .refl d
  | cons r rows ih =>
    rw [stopSweepLoop]
    split
    · exact .refl d
    · next price entry _ _ =>
      split
      · have hclose := settles_r4Close inputs r.id price d
        split
        · next heq => rwa [heq] at hclose
        · next heq =>
          rw [heq] at hclose
          exact hclose.trans (ih _ _)
      · exact ih _ _
    · exact ih _ _

theorem settles_stopSweep (config : R4Config) (variant : R4Variant) (inputs : TickInputs)
    (d : Ledger) :
    d.Settles (stopSweep config variant inputs d).2 := by
  rw [stopSweep]
  split
  · exact .refl d
  · exact settles_stopSweepLoop _ _ _ _ _

/-- The exits only close. -/
theorem settles_r4Exits (config : R4Config) (variant : R4Variant) (inputs : TickInputs)
    (out : TickOut) (d : Ledger) : d.Settles (r4Exits config variant inputs out d).2 := by
  have hbackstop : d.Settles (closeDueTrades (r4Backstop inputs) variant.id inputs.exitsNow
      (openTradesOf variant.id d) d).2.world := by
    refine BackstopState.keeps_foldl (P := d.Settles) (fun _ _ h => h) ?_ (.refl d) _
    intro strategy close hclose tid price reason world h
    rw [r4Backstop] at hclose
    dsimp only at hclose
    split at hclose
    · obtain rfl := Option.some.inj hclose
      exact h.trans (settles_r4Close inputs tid price world)
    · cases hclose
  rw [r4Exits]
  dsimp only
  have hsweep :=
    settles_stopSweep config variant inputs (closeDueTrades (r4Backstop inputs) variant.id
    inputs.exitsNow (openTradesOf variant.id d) d).2.world
  split
  · next heq =>
    rw [heq] at hsweep
    exact hbackstop.trans hsweep
  · next heq =>
    rw [heq] at hsweep
    exact hbackstop.trans hsweep

end Exits

/-! ## Sizing -/

theorem variantWeight_pos (s : R4Strategy) : 0 < variantWeight s := by norm_num [variantWeight]

theorem minNotionalUsdt_pos : 0 < minNotionalUsdt := by norm_num [minNotionalUsdt]

/-- What is granted is neither above what is asked for nor above the budget, unless it is
nothing. -/
theorem grantedNotional_le {asked budget : ℚ} (h : 0 < grantedNotional asked budget) :
    grantedNotional asked budget ≤ asked ∧ grantedNotional asked budget ≤ budget := by
  rw [grantedNotional] at h ⊢
  split at h
  · next hcapped =>
    have hbudget : max budget 0 = budget := by
      refine max_eq_left (le_of_lt ?_)
      by_contra hle
      rw [max_eq_right (not_lt.mp hle)] at h
      exact lt_irrefl 0 h
    rw [if_pos hcapped, hbudget]
    exact ⟨le_of_lt hcapped, le_rfl⟩
  · next hfits =>
    rw [if_neg hfits]
    exact ⟨le_rfl, not_lt.mp hfits⟩

/-- A resized intent carries a notional that is large enough, below the cap of its window and within
the budget; and capital, allocation and leverage multiply back to it. -/
theorem sizeIntent_eq_some {intent resized : R4Intent} {capital openGross : ℚ}
    (hcapital : 0 < capital) (h : (sizeIntent intent capital openGross).1 = some resized) :
    resized.reason = intent.reason ∧
      ∃ notional, capital * (resized.allocationPct / 100) * resized.leverage = notional ∧
        minNotionalUsdt ≤ notional ∧
        notional ≤ capital * variantWeight intent.reason.strategy * levCap ∧
        openGross + notional ≤ grossMaxX * capital := by
  have hproduct : 0 < capital * variantWeight intent.reason.strategy :=
    mul_pos hcapital (variantWeight_pos _)
  rw [sizeIntent] at h
  split at h
  · cases h
  next hlarge =>
  obtain rfl := Option.some.inj h
  obtain ⟨hasked, hbudget⟩ := grantedNotional_le (minNotionalUsdt_pos.trans_le (not_lt.mp hlarge))
  refine ⟨rfl, _, ?_, not_lt.mp hlarge, hasked.trans ?_, by linarith⟩
  · rw [mul_div_cancel_left₀ _ (by norm_num : (100 : ℚ) ≠ 0), mul_div_cancel₀ _ hproduct.ne']
  · exact mul_le_mul_of_nonneg_left (min_le_right _ _) hproduct.le

/-! ## The budget -/

/-- What the bot promises of the trades that it opens. -/
def OpenedWithinCaps (variant : R4Variant) (x : TradeEntry) : Prop :=
  x.strategyVariant = variant.id ∧ ∃ s : R4Strategy, x.strategy = s.name ∧
    ∃ notional ∈ x.sizeUsdt, minNotionalUsdt ≤ notional ∧
      notional ≤ variant.capitalUsdt * variantWeight s * levCap

/-- The invariant of a run from `start`. -/
structure WithinBudget (variant : R4Variant) (start d : Ledger) : Prop where
  gross : d.openGrossUsdt variant.id ≤ grossMaxX * variant.capitalUsdt
  /-- A close gives something back. -/
  nonneg : ∀ r ∈ d.openOf variant.id, 0 ≤ r.notionalUsdt
  opened : ∀ x ∈ d.entries, start.Has x.id ∨ OpenedWithinCaps variant x

section Budget

variable {config : R4Config} {variant : R4Variant} {inputs : TickInputs} {start d d' : Ledger}
  {intent resized : R4Intent} {strategy : R4Strategy}

theorem WithinBudget.settles (h : WithinBudget variant start d) (hsettles : d.Settles d') :
    WithinBudget variant start d' where
  gross := by
    refine le_trans ?_ h.gross
    refine ((hsettles.openOf variant.id).map _).sum_le_sum fun x hx => ?_
    obtain ⟨r, hr, rfl⟩ := List.mem_map.mp hx
    exact h.nonneg r hr
  nonneg r hr := h.nonneg r ((hsettles.openOf variant.id).subset hr)
  opened := by
    rw [hsettles.entries]
    exact h.opened

theorem toUpper_name (s : R4Strategy) : s.name.toUpper = s.name := by
  cases s <;> decide +kernel

/-- The size that `open_paper_trade` computes is the notional that was granted. -/
theorem sizeUsdt_openArgs (inputs : TickInputs) (hcapital : 0 < variant.capitalUsdt) :
    (resized.openArgs variant inputs).sizeUsdt =
      variant.capitalUsdt * (resized.allocationPct / 100) * resized.leverage := by
  rw [OpenArgs.sizeUsdt, OpenArgs.capital, R4Intent.openArgs]
  dsimp only
  rw [pyOr, if_neg hcapital.ne']

theorem WithinBudget.spawn {row : TradeRow} {now : Time} {e : RecordArgs}
    (h : WithinBudget variant start d) (hinserted : (d.insertTrade row).2 = .inserted)
    (hvariant : row.strategyVariant = variant.id) (hopen : row.status = .open_)
    (hnonneg : 0 ≤ row.notionalUsdt)
    (hgross : d.openGrossUsdt variant.id + row.notionalUsdt ≤ grossMaxX * variant.capitalUsdt)
    (hopened : OpenedWithinCaps variant row.toTradeEntry) :
    WithinBudget variant start (d.spawn row now e) := by
  have htrades : (d.spawn row now e).trades = d.trades ++ [row] := by
    rw [Ledger.spawn, record_trades, (insertTrade_of_inserted hinserted).2]
  have hopens : (d.spawn row now e).openOf variant.id = d.openOf variant.id ++ [row] := by
    rw [Ledger.openOf, htrades, List.filter_append, List.filter_cons,
      if_pos (decide_eq_true ⟨hvariant, hopen⟩), List.filter_nil, Ledger.openOf]
  refine ⟨?_, fun r hr => ?_, fun x hx => ?_⟩
  · rw [openGrossUsdt, hopens, List.map_append, List.sum_append, List.map_singleton,
      List.sum_singleton]
    exact hgross
  · rw [hopens] at hr
    rcases List.mem_append.mp hr with hr | hr
    · exact h.nonneg r hr
    · rwa [List.mem_singleton.mp hr]
  · rw [Ledger.entries, htrades, List.map_append, List.map_singleton] at hx
    rcases List.mem_append.mp hx with hx | hx
    · exact h.opened x hx
    · rw [List.mem_singleton.mp hx]
      exact .inr hopened

/-- An open within the budget keeps the invariant, also when the trade is there already. -/
theorem WithinBudget.openTrade (inputs : TickInputs) (hcapital : 0 < variant.capitalUsdt)
    (h : WithinBudget variant start d)
    (hsize : (sizeIntent intent variant.capitalUsdt (d.openGrossUsdt variant.id)).1 =
      some resized) :
    WithinBudget variant start
      ((Call.openTrade (resized.openArgs variant inputs)).run inputs.env d).1 := by
  obtain ⟨hreason, notional, hnotional, hleast, hmost, hbudget⟩ := sizeIntent_eq_some hcapital hsize
  rw [← sizeUsdt_openArgs inputs hcapital] at hnotional
  have hrow (tid : String) : ((resized.openArgs variant inputs).row tid).notionalUsdt = notional :=
    hnotional
  rw [Call.run, Call.prog]
  rcases openPaperTrade_run_cases d (resized.openArgs variant inputs) with hrun | ⟨hinserted, hrun⟩
  · rwa [hrun]
  · rw [hrun]
    refine h.spawn hinserted rfl rfl ?_ ?_
      ⟨rfl, intent.reason.strategy, ?_, notional, ?_, hleast, hmost⟩
    · rw [hrow]
      exact (minNotionalUsdt_pos.trans_le hleast).le
    · rwa [hrow]
    · rw [← hreason]
      exact toUpper_name _
    · exact congrArg some hnotional

theorem WithinBudget.enterIntent (hcapital : 0 < variant.capitalUsdt) {s : EntryState}
    (h : WithinBudget variant start s.ledger) :
    WithinBudget variant start (enterIntent variant inputs strategy intent s).state.ledger := by
  rw [P300.enterIntent]
  cases hsize : (sizeIntent intent variant.capitalUsdt (s.ledger.openGrossUsdt variant.id)).1 with
  | none => exact h
  | some resized =>
    have hopen := h.openTrade inputs hcapital hsize
    rw [enterSized]
    split
    · next heq => rwa [heq] at hopen
    · next heq => rwa [heq] at hopen

/-- The step lemma: whatever is decided, a window keeps the invariant. -/
theorem WithinBudget.enterWindow (config : R4Config) (inputs : TickInputs) (strategy : R4Strategy)
    (hcapital : 0 < variant.capitalUsdt) {s : EntryState}
    (h : WithinBudget variant start s.ledger) :
    WithinBudget variant start (enterWindow config variant inputs strategy s).state.ledger := by
  rw [P300.enterWindow]
  split
  · exact h
  split
  · exact h
  dsimp only
  split
  · exact h
  split
  · exact h
  split
  · exact h
  · exact WithinBudget.enterIntent hcapital h
  · exact h

/-- The windows of one tick, each on the ledger that the ones before it leave. -/
theorem WithinBudget.entryLoop (hcapital : 0 < variant.capitalUsdt) (strategies : List R4Strategy)
    {s : EntryState} (h : WithinBudget variant start s.ledger) :
    WithinBudget variant start (entryLoop config variant inputs strategies s).ledger := by
  induction strategies generalizing s with
  | nil => exact h
  | cons strategy strategies ih =>
    have hstep := WithinBudget.enterWindow config inputs strategy hcapital h
    rw [P300.entryLoop]
    split
    · next heq =>
      rw [heq] at hstep
      exact ih hstep
    · next heq =>
      rw [heq] at hstep
      exact hstep

theorem WithinBudget.tick (hcapital : 0 < variant.capitalUsdt) (h : WithinBudget variant start d) :
    WithinBudget variant start (r4Tick config variant inputs d).2 := by
  rw [P300.r4Tick]
  split
  · exact h
  · refine WithinBudget.settles ?_ (settles_r4Exits _ _ _ _ _)
    split
    · exact h
    · exact WithinBudget.entryLoop hcapital r4Strategies h

theorem WithinBudget.runTicks (config : R4Config) (hcapital : 0 < variant.capitalUsdt)
    (ticks : List TickInputs) (h : WithinBudget variant start d) :
    WithinBudget variant start (runTicks config variant ticks d) := by
  induction ticks generalizing d with
  | nil => exact h
  | cons inputs ticks ih => exact ih (h.tick hcapital)

end Budget

/-- The co-fire budget holds after every tick, and every trade that is opened keeps the bounds of
its window. As at the start, no open trade has a negative notional, so that the next process may go
on. -/
theorem r4_budget_holds (config : R4Config) (variant : R4Variant) (ticks : List TickInputs)
    {d : Ledger} (hcapital : 0 < variant.capitalUsdt)
    (hnonneg : ∀ r ∈ d.openOf variant.id, 0 ≤ r.notionalUsdt)
    (hstart : d.openGrossUsdt variant.id ≤ grossMaxX * variant.capitalUsdt) :
    (runTicks config variant ticks d).openGrossUsdt variant.id ≤ grossMaxX * variant.capitalUsdt ∧
      (∀ r ∈ (runTicks config variant ticks d).openOf variant.id, 0 ≤ r.notionalUsdt) ∧
      ∀ r ∈ (runTicks config variant ticks d).trades, ¬ d.Has r.id →
        OpenedWithinCaps variant r.toTradeEntry := by
  have hbudget : WithinBudget variant d d := ⟨hstart, hnonneg, fun x hx => .inl ⟨x, hx, rfl⟩⟩
  have hrun := hbudget.runTicks config hcapital ticks
  refine ⟨hrun.gross, hrun.nonneg, fun r hr hnew => ?_⟩
  exact (hrun.opened r.toTradeEntry (List.mem_map_of_mem hr)).resolve_left hnew

/-! A Wednesday on which the ETH trade of the evening before is still open with 12 000, and both
windows of 04:00 ask for 15 000. -/

def coFireVariant : R4Variant := ⟨"bot_r4_v1", 10_000⟩

def coFireIntent (s : R4Strategy) : R4Intent where
  asset := s.asset
  direction := .long
  allocationPct := 15
  leverage := 15 / 2
  conviction := 100
  priority := 100
  reason := {
    sleeve := s, mode := .strongBull, volLev := 3, innerLev := 5 / 2, gated := false
    trigger := "calendar_open", entryPrice := 2000, strategy := s, exitDt := atHour 20_670 14
    now := atHour 20_670 4, signalDay := "2026-08-05" }
  scheduledExitDt := atHour 20_670 14

def coFireTick : TickInputs where
  now := atHour 20_670 4 + 60_000_000
  decide s _ :=
    if s = .btcV2 ∨ s = .ethV2 then .ok ([coFireIntent s], .decided (15 / 100) (15 / 2))
    else .ok ([], .notCalendarDay)

def coFireStart : Ledger :=
  ((Call.openTrade {
    variantId := "bot_r4_v1", capitalUsdt := some 10_000, sleeveName :=
      "JPLUS_R4_ETH", asset := "ETH"
    direction := .long, entryPrice := 2000, allocationPct := 20, leverage := 6
    scheduledExitDt := some (atHour 20_670 20), now := atHour 20_669 20 }).run quietEnv empty).1

/-- The second window is scaled down to what the first one leaves. -/
theorem r4_budget_holds_coFire :
    (runTicks { enabled := fun _ => true } coFireVariant [coFireTick] coFireStart).openGrossUsdt
      "bot_r4_v1" =
        30_000 ∧
      ∀ r ∈ (runTicks { enabled := fun _ => true } coFireVariant [coFireTick] coFireStart).trades,
        ¬ coFireStart.Has r.id → OpenedWithinCaps coFireVariant r.toTradeEntry :=
  ⟨by decide +kernel, (r4_budget_holds { enabled := fun _ => true } coFireVariant [coFireTick]
    (by norm_num [coFireVariant]) (by decide +kernel) (by decide +kernel)).2.2⟩

end P300
