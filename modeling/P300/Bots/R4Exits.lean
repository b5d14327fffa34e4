import P300.Bots.R4Sys

/-!
# The exits of the R4 bot

The backstop is the only exit that a window has. On fresh inputs with prices a tick closes every
trade of the variant whose window has closed, at the price of its asset and with the costs of
`close_perp_trade`, and leaves the others as they are.
-/

namespace P300

open Ledger

/-! ## The entries only add -/

section entries

variable {config : R4Config} {variant : R4Variant} {inputs : TickInputs} {P : Ledger → Prop}

theorem keeps_enterWindow (hopen : ∀ a d, P d → P ((Call.openTrade a).run inputs.env d).1)
    (strategy : R4Strategy) {st : EntryState} (h : P st.ledger) :
    P (enterWindow config variant inputs strategy st).state.ledger := by
  rw [enterWindow]
  split
  · exact h
  split
  · exact h
  dsimp only
  split
  · exact h
  split
  · exact h
  split
  · exact h
  · rw [enterIntent]
    dsimp only
    generalize (sizeIntent _ _ _).1 = sized
    cases sized with
    | none => exact h
    | some resized =>
      have hrun := hopen (resized.openArgs variant inputs) st.ledger h
      rw [enterSized]
      split
      · next heq => rwa [heq] at hrun
      · next heq => rwa [heq] at hrun
  · exact h

/-- What every open keeps, the entries keep. -/
theorem keeps_r4Entries (hopen : ∀ a d, P d → P ((Call.openTrade a).run inputs.env d).1)
    {d : Ledger} (h : P d) : P (r4Entries config variant inputs d).ledger := by
  have hloop : ∀ strategies st, P st.ledger →
      P (entryLoop config variant inputs strategies st).ledger := by
    intro strategies
    induction strategies with
    | nil => exact fun _ h => h
    | cons strategy strategies ih =>
      intro st h
      have hstep : P (enterWindow config variant inputs strategy st).state.ledger :=
        keeps_enterWindow hopen strategy h
      rw [entryLoop]
      split
      · next heq =>
        rw [heq] at hstep
        exact ih _ hstep
      · next heq => rwa [heq] at hstep
  rw [r4Entries]
  split
  · exact h
  · exact hloop _ _ h

/-- The trades that there are stay as they are. -/
theorem mem_r4Entries {d : Ledger} {r : TradeRow} (hr : r ∈ d.trades) :
    r ∈ (r4Entries config variant inputs d).ledger.trades := by
  refine keeps_r4Entries (P := fun d => r ∈ d.trades) (fun a d hr => ?_) hr
  rw [Call.run, Call.prog]
  rcases openPaperTrade_run_cases d a with hrun | ⟨hinserted, hrun⟩
  · rwa [hrun]
  · rw [hrun, Ledger.spawn, record_trades, (insertTrade_of_inserted hinserted).2]
    exact List.mem_append_left _ hr

end entries

/-! ## The backstop -/

/-- The columns of the backstop. -/
def TradeRow.backstopRow (r : TradeRow) : BackstopRow :=
  ⟨r.id, r.asset, r.exitTime.elim .missing fun t => .aware t 0, r.strategy⟩

/-- The exit time of the trade has passed. -/
def TradeRow.DueAt (r : TradeRow) (now : Time) : Prop := ∃ t ∈ r.exitTime, t ≤ now

instance (r : TradeRow) (now : Time) : Decidable (r.DueAt now) :=
  inferInstanceAs (Decidable (∃ _ ∈ _, _))

/-- The trade is open as it was opened in a window. -/
structure TradeRow.Live (r : TradeRow) (x : R4Variant) (now : Time) (d : Ledger) : Prop where
  mem : r ∈ d.trades
  opened : ∃ (a : OpenArgs) (strategy : R4Strategy) (day : Int), a.ForWindow x strategy day ∧
    r = a.row r.id ∧ d.eventsOf r.id = [(a.event r.id).row a.now 0] ∧ a.entryTime ≤ now

section backstop

variable {x : R4Variant} {reads : R4Reads} {d : Ledger} {r r' : TradeRow} {now : Time}
  {price : String → ℚ}

theorem due_backstopRow : r.backstopRow.Due now ↔ r.DueAt now := by
  rw [BackstopRow.Due, TradeRow.DueAt, TradeRow.backstopRow]
  cases r.exitTime with
  | none => simp [ExitTime.exitDt]
  | some t => simp [ExitTime.exitDt]

theorem TradeRow.Live.strategy (h : r.Live x now d) :
    ∃ s : R4Strategy, r.strategy = s.name ∧ r.asset = s.asset := by
  obtain ⟨a, s, day, ha, hrow, -, -⟩ := h.opened
  refine ⟨s, ?_, ?_⟩
  · rw [hrow]
    change a.sleeveName.toUpper = _
    rw [ha.position.1, toUpper_name]
  · rw [hrow]
    exact ha.position.2.1

/-- The close of a live trade, and what it leaves alone. -/
theorem TradeRow.Live.close (h : r.Live x reads.closeNow d) (price : ℚ) :
    ∃ d', r4Close (reads.inputs x.id) r.id price d = (.ok (), d') ∧
      (∃ r' ∈ d'.trades, PerpCloseArgs.Closed
        { tradeId := r.id, exitPrice := price, now := reads.closeNow } reads.env r r') ∧
      ∀ r₀ ∈ d.trades, r₀.id ≠ r.id → r₀ ∈ d'.trades ∧ d'.eventsOf r₀.id = d.eventsOf r₀.id := by
  obtain ⟨a, s, day, ha, hrow, hev, hle⟩ := h.opened
  have hstrategy : a.sleeveName.toUpper.toUpper ∉ ["ADX", "THU_BEAR"] := by
    rw [ha.position.1, toUpper_name, toUpper_name]
    cases s <;> decide
  have hopen : r.status = .open_ := by
    rw [hrow]
    rfl
  have hfound : d.openTrade? r.id = some (a.row r.id) := by
    rw [openTrade?_of_mem h.mem hopen, ← hrow]
  obtain ⟨d', hrun, ⟨r', hr', hclosed⟩, hrest⟩ := @closePerp_asOpened reads.env d a
    { tradeId := r.id, exitPrice := price, now := reads.closeNow } ha.position.2.2 hstrategy rfl
    rfl hfound hev hle
  refine ⟨d', ?_, ⟨r', hr', ?_⟩, hrest⟩
  · rw [r4Close,
      show (reads.inputs x.id).env = reads.env from rfl,
      show (reads.inputs x.id).closeNow r.id = reads.closeNow from rfl, hrun]
  · rw [hrow]
    exact hclosed

/-- The step lemma: a live trade that is due is closed. -/
theorem trade_backstopRow {st : BackstopState Ledger} (h : r.Live x reads.closeNow st.world)
    (hprice : ∀ s : R4Strategy, reads.currentPrice s.asset = .ok (some (price s.asset)))
    (hdue : r.DueAt now) :
    let d' := (st.trade (r4Backstop (reads.inputs x.id)) now r.backstopRow).world
    (∃ r' ∈ d'.trades, PerpCloseArgs.Closed
      { tradeId := r.id, exitPrice := price r.asset, now := reads.closeNow } reads.env r r') ∧
    ∀ r₀ ∈ st.world.trades, r₀.id ≠ r.id →
      r₀ ∈ d'.trades ∧ d'.eventsOf r₀.id = st.world.eventsOf r₀.id := by
  obtain ⟨s, hstrategy, hasset⟩ := h.strategy
  obtain ⟨d', hclose, hclosed, hrest⟩ := h.close (price r.asset)
  obtain ⟨exitDt, hexit, hle⟩ := due_backstopRow.mpr hdue
  have hcloser : (r4Backstop (reads.inputs x.id)).closers r.backstopRow.strategy =
      some fun tid price _ d => r4Close (reads.inputs x.id) tid price d := by
    refine if_pos ?_
    rw [show r.backstopRow.strategy = s.name from hstrategy]
    exact List.mem_map_of_mem (R4Sys.mem_r4Strategies s)
  have hread : (r4Backstop (reads.inputs x.id)).getCurrentPrice r.backstopRow.asset st.world =
      (.ok (some (price r.asset)), st.world) := by
    change (reads.currentPrice r.asset, st.world) = _
    rw [hasset, hprice s]
  have hworld : (st.trade (r4Backstop (reads.inputs x.id)) now r.backstopRow).world = d' := by
    rw [BackstopState.trade, hexit]
    dsimp only
    rw [if_neg (not_lt.mpr hle), hcloser]
    dsimp only
    rw [hread]
    dsimp only
    rw [show r.backstopRow.id = r.id from rfl, hclose]
  dsimp only
  rw [hworld]
  exact ⟨hclosed, hrest⟩

theorem TradeRow.Live.keeps {d' : Ledger} (h : r.Live x now d)
    (hkept : r ∈ d'.trades ∧ d'.eventsOf r.id = d.eventsOf r.id) : r.Live x now d' := by
  obtain ⟨a, s, day, ha, hrow, hev, hle⟩ := h.opened
  exact ⟨hkept.1, a, s, day, ha, hrow, hkept.2.trans hev, hle⟩

/-- The run lemma: of live trades, those that are due are closed, and the others stay. -/
theorem foldl_backstopRow (hprice : ∀ s : R4Strategy,
      reads.currentPrice s.asset = .ok (some (price s.asset)))
    (rows : List TradeRow) {st : BackstopState Ledger} (hnodup : (rows.map (·.id)).Nodup)
    (h : ∀ r ∈ rows, r.Live x reads.closeNow st.world) :
    let d' := ((rows.map TradeRow.backstopRow).foldl
      (BackstopState.trade (r4Backstop (reads.inputs x.id)) now) st).world
    (∀ r ∈ rows, r.DueAt now → ∃ r' ∈ d'.trades, PerpCloseArgs.Closed
      { tradeId := r.id, exitPrice := price r.asset, now := reads.closeNow } reads.env r r') ∧
    (∀ r ∈ rows, ¬ r.DueAt now → r ∈ d'.trades) ∧
    ∀ r₀ ∈ st.world.trades, r₀.id ∉ rows.map (·.id) → r₀ ∈ d'.trades := by
  induction rows generalizing st with
  | nil => exact ⟨fun r hr => (nomatch hr), fun r hr => (nomatch hr), fun r hr _ => hr⟩
  | cons r rows ih =>
    obtain ⟨hlive, hrows⟩ := List.forall_mem_cons.mp h
    rw [List.map_cons, List.nodup_cons] at hnodup
    rw [List.map_cons, List.foldl_cons]
    by_cases hdue : r.DueAt now
    · obtain ⟨⟨r', hr', hclosed⟩, hrest⟩ := trade_backstopRow hlive hprice hdue
      have hne : ∀ r₁ ∈ rows, r₁.id ≠ r.id := fun r₁ hr₁ heq =>
        hnodup.1 (heq ▸ List.mem_map_of_mem hr₁)
      obtain ⟨hdues, hothers, hkeeps⟩ := ih hnodup.2 fun r₁ hr₁ =>
        (hrows r₁ hr₁).keeps (hrest r₁ (hrows r₁ hr₁).mem (hne r₁ hr₁))
      have hid : r'.id = r.id := congrArg TradeEntry.id hclosed.entry
      refine ⟨List.forall_mem_cons.mpr ⟨fun _ => ⟨r', ?_, hclosed⟩, hdues⟩,
        List.forall_mem_cons.mpr ⟨fun hnot => absurd hdue hnot, hothers⟩, fun r₀ hr₀ hnot => ?_⟩
      · exact hkeeps r' hr' (hid ▸ hnodup.1)
      · rw [List.map_cons, List.mem_cons, not_or] at hnot
        exact hkeeps r₀ (hrest r₀ hr₀ hnot.1).1 hnot.2
    · rw [trade_of_not_due fun h => hdue (due_backstopRow.mp h)]
      obtain ⟨hdues, hothers, hkeeps⟩ := ih hnodup.2 hrows
      refine ⟨List.forall_mem_cons.mpr ⟨fun h => absurd h hdue, hdues⟩,
        List.forall_mem_cons.mpr ⟨fun _ => hkeeps r hlive.mem hnodup.1, hothers⟩,
        fun r₀ hr₀ hnot => hkeeps r₀ hr₀ ?_⟩
      rw [List.map_cons, List.mem_cons, not_or] at hnot
      exact hnot.2

end backstop

namespace R4Sys

variable {config : R4Config} {x : R4Variant} {s s' : R4Sys} {reads : R4Reads} {acts : List R4Act}
  {d : Ledger} {clock : Time} {price : String → ℚ}

/-- In every state that a run reaches, a tick on fresh inputs with prices closes exactly the trades
of the variant whose window has closed, each at the price of its asset, and leaves the others as
they are; no trade is left open past the end of its window. -/
theorem punctual (hd : d.Consistent) (hnew : ∀ r ∈ d.trades, r.strategyVariant ≠ x.id)
    (h : run config x { ledger := d, clock } acts = some s)
    (ha : s.step config x (.tick reads) = some s') (hfresh : reads.staleMgmt = [])
    (hstop : config.stopLossPct = none)
    (hprice : ∀ s : R4Strategy, reads.currentPrice s.asset = .ok (some (price s.asset))) :
    (∀ r ∈ s.ledger.openOf x.id, r.DueAt reads.exitsNow → ∃ r' ∈ s'.ledger.trades,
      PerpCloseArgs.Closed { tradeId := r.id, exitPrice := price r.asset, now := reads.closeNow }
        reads.env r r') ∧
    (∀ r ∈ s.ledger.openOf x.id, ¬ r.DueAt reads.exitsNow → r ∈ s'.ledger.openOf x.id) ∧
    ∀ r ∈ s'.ledger.openOf x.id, ¬ r.DueAt reads.exitsNow := by
  have H : s.Windowed x := windowed_run hd hnew h
  obtain ⟨⟨hclock, hord⟩, ha⟩ := Option.ite_none_right_eq_some.mp ha
  cases ha
  have hentries := @Windowed.entries config x s reads H hclock hord
  set d₁ := (r4Entries config x (reads.inputs x.id) s.ledger).ledger with hd₁
  have hlive : ∀ r ∈ d₁.openOf x.id, r.Live x reads.closeNow d₁ := by
    intro r hr
    obtain ⟨hm, hv, ho⟩ := mem_openOf.mp hr
    obtain ⟨a, strategy, day, ha, hrow, hle, -⟩ := hentries.trades r hm hv
    exact ⟨hm, a, strategy, day, ha, (hrow.live ho).1, (hrow.live ho).2, hle.trans hord.2⟩
  have hstale : (reads.inputs x.id).staleMgmt = [] := hfresh
  have hexits : (s.tick config x reads).ledger = (r4Exits config x (reads.inputs x.id)
      ((r4Entries config x (reads.inputs x.id) s.ledger).report (dateIso (utcDate reads.now)))
      d₁).2 := by
    rw [R4Sys.tick]
    dsimp only
    rw [r4Tick_ledger, if_neg (not_not_intro hstale)]
    rfl
  have hfold : (s.tick config x reads).ledger =
      (((d₁.openOf x.id).map TradeRow.backstopRow).foldl
        (BackstopState.trade (r4Backstop (reads.inputs x.id)) reads.exitsNow)
        { world := d₁ }).world := by
    rw [hexits, r4Exits_ledger, stopSweep, hstop]
    rfl
  have hnodup : ((d₁.openOf x.id).map (·.id)).Nodup :=
    d₁.ids_nodup.sublist (List.filter_sublist.map _)
  obtain ⟨hdues, hothers, -⟩ := @foldl_backstopRow x reads reads.exitsNow price hprice
    (d₁.openOf x.id) { world := d₁ } hnodup hlive
  rw [← hfold] at hdues hothers
  have hold : ∀ r ∈ s.ledger.openOf x.id, r ∈ d₁.openOf x.id := by
    intro r hr
    obtain ⟨hm, hv, ho⟩ := mem_openOf.mp hr
    exact mem_openOf.mpr ⟨mem_r4Entries hm, hv, ho⟩
  refine ⟨fun r hr hdue => hdues r (hold r hr) hdue, fun r hr hdue => ?_, fun r hr hdue => ?_⟩
  · obtain ⟨-, hv, ho⟩ := mem_openOf.mp hr
    exact mem_openOf.mpr ⟨hothers r (hold r hr) hdue, hv, ho⟩
  · have hcloses : d₁.OnlyCloses x.id (s.tick config x reads).ledger := by
      rw [hexits]
      exact onlyCloses_r4Exits hentries.consistent _
    obtain ⟨r', hr', hclosed⟩ := hdues r (hcloses.openOf_subset hr).1 hdue
    obtain ⟨hm, -, ho⟩ := mem_openOf.mp hr
    obtain rfl := eq_of_id hr' hm (congrArg TradeEntry.id hclosed.entry)
    rw [hclosed.status] at ho
    cases ho

/-- On Wednesday at 14:00 the window of the morning is closed, and that of the evening before is
not. -/
theorem punctual_augustActs : ∃ s s',
    run {} coFireVariant { ledger := .empty, clock := 0 } (augustActs.take 3) = some s ∧
    s.step {} coFireVariant (.tick (augustTick 20_670 14 0)) = some s' ∧
    (s.ledger.openOf coFireVariant.id).map (·.id) = ["SJ-0001", "SJ-0002"] ∧
    (∀ r ∈ s.ledger.openOf coFireVariant.id, ¬ r.DueAt (atHour 20_670 14) →
      r ∈ s'.ledger.openOf coFireVariant.id) ∧
    ∀ r ∈ s'.ledger.openOf coFireVariant.id, ¬ r.DueAt (atHour 20_670 14) := by
  have hrun : (run {} coFireVariant { ledger := .empty, clock := 0 } (augustActs.take 3)).map
      (fun s => ((s.step {} coFireVariant (.tick (augustTick 20_670 14 0))).isSome,
        (s.ledger.openOf coFireVariant.id).map (·.id))) =
      some (true, ["SJ-0001", "SJ-0002"]) := by
    decide +kernel
  obtain ⟨s, hs, hvalue⟩ := Option.map_eq_some_iff.mp hrun
  obtain ⟨hstep, hopen⟩ := Prod.mk.inj hvalue
  obtain ⟨s', hs'⟩ := Option.isSome_iff_exists.mp hstep
  obtain ⟨-, hothers, hnone⟩ := @punctual _ _ _ _ _ _ _ _ (fun _ => 2100) .empty
    (fun _ h => (nomatch h)) hs hs' rfl rfl fun _ => rfl
  exact ⟨s, s', hs, hs', hopen, hothers, hnone⟩

end R4Sys

end P300
