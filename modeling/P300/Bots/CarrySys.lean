import P300.Bots.CarryTick
import P300.Ledger.Closes
import P300.Lib.Trace

/-!
# The carry bots over their runs

Each bot ticks in a process of its own, in any order with the others and with calls of other
processes, which open, resize and flip trades of other variants and close any trade. Through all
that a variant makes one trip a day at most: it never opens on a day on which it has opened or
closed a pair, however often its process is restarted.
-/

namespace P300

open Ledger

/-! ## Closes -/

section closes

variable {v : String} {d : Ledger} {bot : CarryBot} {inputs : CarryInputs}

theorem closesBy_carryClose (hd : d.Consistent) (env : Env) (now : Time) (tid : String)
    (price : ℚ) : d.ClosesBy v now (carryClose env now tid price d).2 := by
  have hrun : d.ClosesBy v now ((Call.closeCarry {
      tradeId := tid, exitPrice := price, costPct := entryExitCostPct, now }).run env d).1 :=
    .run hd _ (fun h => by cases h) le_rfl
  rw [carryClose]
  split
  · next heq => rwa [heq] at hrun
  · next heq => rwa [heq] at hrun

theorem closesBy_carrySweep (hd : d.Consistent) (price : ℚ) (rows : List TradeRow)
    (closed : List String) :
    d.ClosesBy v inputs.sweepNow (carrySweep inputs price rows closed d).2 := by
  induction rows generalizing closed d with
  | nil => exact .refl v _ hd
  | cons r rows ih =>
    have hclose := closesBy_carryClose (v := v) hd inputs.env inputs.sweepNow r.id price
    rw [carrySweep]
    split
    · next heq =>
      rw [heq] at hclose
      exact hclose.trans (ih hclose.consistent _) le_rfl
    · next heq => rwa [heq] at hclose

theorem closesBy_carryBackstop (hd : d.Consistent) (out : CarryOut) :
    d.ClosesBy v inputs.closeNow (carryBackstop bot inputs out d).2 := by
  refine BackstopState.keeps_foldl (P := d.ClosesBy v inputs.closeNow) (fun _ _ h => h) ?_
    (.refl v _ hd) _
  intro strategy close hclose tid price reason world h
  rw [carryBackstopEnv] at hclose
  dsimp only at hclose
  split at hclose
  · obtain rfl := Option.some.inj hclose
    exact h.trans (closesBy_carryClose h.consistent inputs.env inputs.closeNow tid price) le_rfl
  · cases hclose

theorem opened_carryBackstop (out : CarryOut) :
    (carryBackstop bot inputs out d).1.opened = out.opened := by
  rw [carryBackstop]
  dsimp only
  split <;> rfl

end closes

/-! ## A tick -/

/-- The intent that `decide` comes to on the tables, sized by the runner. -/
def Decided (bot : CarryBot) (inputs : CarryInputs) (i : CarryIntent) : Prop :=
  ∃ t sig, inputs.tables = .ok t ∧
    evaluateToday (loadRecentDailyFunding bot.asset t inputs.loadNow (utcDate inputs.loadedNow)
      (exitCumDays + 7)) = some sig ∧
    sig.entryOk = true ∧ sig.exitTrigger = false ∧
    i = ⟨100, bot.notionalX, sig.spotClose, sig.fr7dAvgPct, utcDate inputs.now⟩

/-- What a tick does to the ledger `d`, and what it opens. -/
inductive CarryEffect (bot : CarryBot) (inputs : CarryInputs) (d d' : Ledger) :
    Option (CarryIntent × String) → Prop
  | quiet : (∀ v, d.ClosesBy v inputs.closeNow d') → CarryEffect bot inputs d d' none
  | opened {d₁ : Ledger} {i : CarryIntent} {tid : String} :
    openCarryTrades bot.id d = [] → carryActionToday bot.id (utcDate inputs.now) d = false →
    Decided bot inputs i → carryExecute bot inputs i d = (.ok tid, d₁) →
    (∀ v, d₁.ClosesBy v inputs.closeNow d') → CarryEffect bot inputs d d' (some (i, tid))

section tick

variable {bot : CarryBot} {inputs : CarryInputs} {d d' : Ledger} {i : CarryIntent}
  {st : CarryStatus} {tid : String}

/-- A decision without an intent has swept at the most. -/
theorem closesBy_carryDecide (hd : d.Consistent) (v : String) :
    d.ClosesBy v inputs.sweepNow (carryDecide bot inputs d).2 := by
  rw [carryDecide]
  split
  · exact .refl v _ hd
  split
  · exact .refl v _ hd
  next sig _ =>
  split
  · exact .refl v _ hd
  split
  · exact .refl v _ hd
  split
  · next r rows _ =>
    split
    · have hsweep : d.ClosesBy v inputs.sweepNow
          (carrySweep inputs sig.spotClose (r :: rows) [] d).2 := closesBy_carrySweep hd _ _ _
      split <;> next heq => rwa [heq] at hsweep
    · exact .refl v _ hd
  · dsimp only
    split <;> exact .refl v _ hd

theorem carryDecide_eq_some (h : carryDecide bot inputs d = (.ok (some i, st), d')) :
    d' = d ∧ openCarryTrades bot.id d = [] ∧
    carryActionToday bot.id (utcDate inputs.now) d = false ∧
    Decided bot inputs (sizeCarry bot i) := by
  rw [carryDecide] at h
  split at h
  · cases h
  next t ht =>
  split at h
  · cases h
  next sig hsig =>
  split at h
  · cases h
  split at h
  · cases h
  split at h
  · split at h
    · split at h <;> cases h
    · cases h
  · next hopen =>
    dsimp only at h
    split at h
    · next hentry =>
      cases h
      refine ⟨rfl, hopen, Bool.eq_false_iff.mpr hentry.2.2, t, sig, ht, hsig, hentry.1,
        Bool.eq_false_iff.mpr hentry.2.1, rfl⟩
    · cases h

theorem carryExecute_eq_error {e : TradeError} (hd : d.Consistent)
    (h : carryExecute bot inputs i d = (.error e, d')) : d' = d := by
  rw [carryExecute] at h
  split at h
  · cases h
  · next heq =>
    cases h
    exact openTrade_raised hd.minted heq fun _ h => by cases h
  · next hid _ heq =>
    cases h
    exact openTrade_raised hd.minted heq fun tid h => hid tid h

theorem carryExecute_eq_ok (h : carryExecute bot inputs i d = (.ok tid, d')) :
    (Call.openTrade (i.openArgs bot inputs)).run inputs.env d = (d', .id tid) := by
  rw [carryExecute] at h
  split at h
  · next heq =>
    cases h
    exact heq
  · cases h
  · cases h

theorem carryTick_effect (hd : d.Consistent) (hord : inputs.Ordered) :
    CarryEffect bot inputs d (carryTick bot inputs d).2 (carryTick bot inputs d).1.opened := by
  have hsweep : inputs.sweepNow ≤ inputs.closeNow :=
    hord.2.2.2.1.trans (hord.2.2.2.2.1.trans hord.2.2.2.2.2)
  rw [carryTick]
  split
  · exact .quiet fun v => .refl v _ hd
  · exact .quiet fun v => .refl v _ hd
  rw [opened_carryBackstop]
  have hdecide (v : String) : d.ClosesBy v inputs.sweepNow (carryDecide bot inputs d).2 :=
    closesBy_carryDecide hd v
  rw [carryEnter]
  generalize hp : carryDecide bot inputs d = p at hdecide
  obtain ⟨result, d₁⟩ := p
  dsimp only at hdecide
  have hd₁ : d₁.Consistent := (hdecide "").consistent
  have hquiet (out : CarryOut) (v : String) :
      d.ClosesBy v inputs.closeNow (carryBackstop bot inputs out d₁).2 :=
    (hdecide v).trans (closesBy_carryBackstop hd₁ out) hsweep
  match result, hp with
  | .error e, _ => exact .quiet (hquiet _)
  | .ok (none, st), _ => exact .quiet (hquiet _)
  | .ok (some i, st), hp =>
    obtain ⟨rfl, hopen, haction, hdecided⟩ := carryDecide_eq_some hp
    dsimp only
    generalize hq : carryExecute bot inputs (sizeCarry bot i) d₁ = q
    obtain ⟨reply, d₂⟩ := q
    match reply, hq with
    | .error e, hq =>
      obtain rfl := carryExecute_eq_error hd hq
      exact .quiet (hquiet _)
    | .ok tid, hq =>
      have hd₂ : d₂.Consistent := by
        have hrun : ((Call.openTrade ((sizeCarry bot i).openArgs bot inputs)).run inputs.env
          d₁).1.Consistent := hd.run _
        rwa [carryExecute_eq_ok hq] at hrun
      exact .opened hopen haction hdecided hq fun v => closesBy_carryBackstop hd₂ _

end tick

/-! ## The system -/

/-- What `execute` has opened, or found under the same key. -/
structure CarryOpened where
  bot : CarryBot
  inputs : CarryInputs
  intent : CarryIntent
  tid : String

def CarryOpened.args (e : CarryOpened) : OpenArgs := e.intent.openArgs e.bot e.inputs

structure CarrySys where
  ledger : Ledger
  clock : Time
  log : List CarryOpened := []

inductive CarryAct
  | tick (bot : CarryBot) (inputs : CarryInputs)
  /-- A call of another process, which returns at `now`. -/
  | other (env : Env) (c : Call) (now : Time)

namespace CarrySys

variable (bots : List CarryBot) (s : CarrySys)

/-- After a tick. -/
def tick (bot : CarryBot) (inputs : CarryInputs) : CarrySys :=
  let (out, ledger) := carryTick bot inputs s.ledger
  { ledger
    clock := inputs.closeNow
    log := s.log ++ out.opened.toList.map fun (i, tid) => ⟨bot, inputs, i, tid⟩ }

def step : CarryAct → Option CarrySys
  | .tick bot inputs =>
    if bot ∈ bots ∧ s.clock ≤ inputs.loadNow ∧ inputs.Ordered then some (s.tick bot inputs)
    else none
  | .other env c now =>
    if (∀ x ∈ bots, c.variantOf s.ledger ≠ some x.id) ∧ s.clock ≤ now ∧ c.eventTime ≤ now then
      some { s with ledger := (c.run env s.ledger).1, clock := now }
    else none

def run (acts : List CarryAct) : Option CarrySys := Trace.run (step bots) s acts

end CarrySys

/-- The trade of an intent of the bot: a long of its asset at the close of the signal, of its fixed
notional and without a scheduled exit. -/
structure TradeRow.PairOf (r : TradeRow) (x : CarryBot) (i : CarryIntent) : Prop where
  position : r.strategy = "CARRY" ∧ r.asset = x.asset.name ∧ r.direction = .long
  entry : r.entryPrice = some i.entryPrice
  size : x.capitalUsdt ≠ 0 → r.sizeUsdt = some (x.capitalUsdt * x.notionalX)
  exit : r.exitTime = some noScheduledExit

/-- The trade `r` is over, and `r'` was opened on a later day than both of its ends. -/
def TradeRow.Before (r r' : TradeRow) : Prop :=
  r.status ≠ .open_ ∧ ∀ t' ∈ r'.actualEntryTime,
    (∀ t ∈ r.actualEntryTime, utcDate t < utcDate t') ∧
    ∀ t ∈ r.actualExitTime, utcDate t < utcDate t'

namespace CarrySys

/-- What holds of the trades of the bot `x`. -/
structure Harvesting (x : CarryBot) (s : CarrySys) : Prop where
  consistent : s.ledger.Consistent
  decided : ∀ e ∈ s.log, Decided e.bot e.inputs e.intent
  trades : ∀ r ∈ s.ledger.trades, r.strategyVariant = x.id → ∃ e ∈ s.log, e.bot = x ∧
    r.toTradeEntry = (e.args.row e.tid).toTradeEntry ∧
    (r.status = .open_ → r = e.args.row e.tid)
  clock : ∀ r ∈ s.ledger.trades, r.strategyVariant = x.id →
    (∀ t ∈ r.actualEntryTime, t ≤ s.clock) ∧ ∀ t ∈ r.actualExitTime, t ≤ s.clock
  apart : ∀ r ∈ s.ledger.trades, r.strategyVariant = x.id → ∀ r' ∈ s.ledger.trades,
    r'.strategyVariant = x.id → r ≠ r' → r.Before r' ∨ r'.Before r

variable {x y : CarryBot} {s s' : CarrySys} {inputs : CarryInputs} {i : CarryIntent}
  {tid : String} {clock t : Time} {d : Ledger}

/-- What holds is kept while trades of the variant are closed only. -/
theorem Harvesting.keeps (H : s.Harvesting x) (hledger : s.ledger.ClosesBy x.id t d)
    (ht : t ≤ clock) (hclock : s.clock ≤ clock) :
    Harvesting x { s with ledger := d, clock } where
  consistent := hledger.consistent
  decided := H.decided
  trades r hr hv := by
    rcases hledger.rows r hr hv with ⟨hr, -⟩ | ⟨hstatus, -, r₀, hr₀, -, hentry⟩
    · exact H.trades r hr hv
    · obtain ⟨e, he, hex, hrow, -⟩ := H.trades r₀ hr₀
        ((congrArg TradeEntry.strategyVariant hentry).trans hv)
      exact ⟨e, he, hex, hentry.symm.trans hrow, fun ho => absurd ho hstatus⟩
  clock r hr hv := by
    rcases hledger.rows r hr hv with ⟨hr, -⟩ | ⟨-, ⟨z, hz, hle⟩, r₀, hr₀, -, hentry⟩
    · exact (H.clock r hr hv).imp (fun h t ht => (h t ht).trans hclock)
        fun h t ht => (h t ht).trans hclock
    · have hv₀ : r₀.strategyVariant = x.id :=
        (congrArg TradeEntry.strategyVariant hentry).trans hv
      have htime : r₀.actualEntryTime = r.actualEntryTime :=
        congrArg TradeEntry.actualEntryTime hentry
      refine ⟨fun t ht' => ?_, fun t ht' => ?_⟩
      · exact ((H.clock r₀ hr₀ hv₀).1 t (htime ▸ ht')).trans hclock
      · obtain rfl := Option.some.inj (hz.symm.trans ht')
        exact hle.trans ht
  apart r hr hv r' hr' hv' hne := by
    -- the row that stands for the trade in the ledger before
    have hold : ∀ r ∈ d.trades, r.strategyVariant = x.id → ∃ r₀ ∈ s.ledger.trades,
        r₀.toTradeEntry = r.toTradeEntry ∧ (r₀ = r ∨ r₀.status = .open_ ∧ r.status ≠ .open_) := by
      intro r hr hv
      rcases hledger.rows r hr hv with ⟨hr, -⟩ | ⟨hstatus, -, r₀, hr₀, hopen, hentry⟩
      · exact ⟨r, hr, rfl, .inl rfl⟩
      · exact ⟨r₀, hr₀, hentry, .inr ⟨hopen, hstatus⟩⟩
    obtain ⟨r₀, hr₀, hentry, hcase⟩ := hold r hr hv
    obtain ⟨r₀', hr₀', hentry', hcase'⟩ := hold r' hr' hv'
    have hne₀ : r₀ ≠ r₀' := by
      intro heq
      have hid : r.id = r'.id := by
        rw [← congrArg TradeEntry.id hentry, ← congrArg TradeEntry.id hentry', heq]
      exact hne (eq_of_id hr hr' hid)
    have hkeep : ∀ {a b a₀ b₀ : TradeRow}, a₀.toTradeEntry = a.toTradeEntry →
        (a₀ = a ∨ a₀.status = .open_ ∧ a.status ≠ .open_) →
        b₀.toTradeEntry = b.toTradeEntry → a₀.Before b₀ → a.Before b := by
      intro a b a₀ b₀ _ ha hb hbefore
      obtain rfl := ha.resolve_right fun h => hbefore.1 h.1
      have htime : b₀.actualEntryTime = b.actualEntryTime :=
        congrArg TradeEntry.actualEntryTime hb
      exact ⟨hbefore.1, fun t' ht' => hbefore.2 t' (htime ▸ ht')⟩
    rcases H.apart r₀ hr₀ ((congrArg TradeEntry.strategyVariant hentry).trans hv) r₀' hr₀'
      ((congrArg TradeEntry.strategyVariant hentry').trans hv') hne₀ with h | h
    · exact .inl (hkeep hentry hcase hentry' h)
    · exact .inr (hkeep hentry' hcase' hentry h)

/-- A trade of the bot is a carry pair. -/
theorem Harvesting.strategy (H : s.Harvesting x) {r : TradeRow} (hr : r ∈ s.ledger.trades)
    (hv : r.strategyVariant = x.id) : r.strategy = "CARRY" := by
  obtain ⟨e, -, -, hrow, -⟩ := H.trades r hr hv
  rw [show r.strategy = (e.args.row e.tid).strategy from congrArg TradeEntry.strategy hrow]
  change "CARRY".toUpper = "CARRY"
  decide +kernel

/-- Where `decide` finds no pair and no action, all trades of the variant are over, on days before
the running one. -/
theorem Harvesting.before (H : s.Harvesting x) (hopen : openCarryTrades x.id s.ledger = [])
    (haction : carryActionToday x.id (utcDate inputs.now) s.ledger = false)
    (hclock : s.clock ≤ inputs.now) (hnow : inputs.now ≤ inputs.openNow) {r r' : TradeRow}
    (hr : r ∈ s.ledger.trades) (hv : r.strategyVariant = x.id)
    (hr' : r'.actualEntryTime = some inputs.openNow) : r.Before r' := by
  have hcarry := H.strategy hr hv
  have hacted : ¬ r.ActedOn (utcDate inputs.now) := fun h =>
    absurd (decide_eq_true ⟨hv, hcarry, h⟩) (List.any_eq_false.mp haction r hr)
  have hlt : ∀ t, t ≤ s.clock → utcDate t ≠ utcDate inputs.now →
      utcDate t < utcDate inputs.openNow := by
    intro t ht hne
    have hday : utcDate t ≤ utcDate inputs.now := Int.ediv_le_ediv (by decide) (ht.trans hclock)
    exact (lt_of_le_of_ne hday hne).trans_le (Int.ediv_le_ediv (by decide) hnow)
  refine ⟨fun ho => ?_, fun t' ht' => ?_⟩
  · have hmem : r ∈ openCarryTrades x.id s.ledger := (List.mem_insertionSort newestFirst).mpr
      (List.mem_filter.mpr ⟨mem_openOf.mpr ⟨hr, hv, ho⟩, decide_eq_true hcarry⟩)
    rw [hopen] at hmem
    cases hmem
  · obtain rfl : inputs.openNow = t' := Option.some.inj (hr'.symm.trans ht')
    obtain ⟨hentry, hexit⟩ := H.clock r hr hv
    exact ⟨fun t ht => hlt t (hentry t ht) fun h => hacted (.inl ⟨t, ht, h⟩),
      fun t ht => hlt t (hexit t ht) fun h => hacted (.inr ⟨t, ht, h⟩)⟩

/-- One more entry in the log. -/
theorem Harvesting.snoc (H : s.Harvesting x) {e : CarryOpened}
    (he : Decided e.bot e.inputs e.intent) (hclock : s.clock ≤ clock) :
    Harvesting x { s with clock, log := s.log ++ [e] } where
  consistent := H.consistent
  decided e' he' := by
    rcases List.mem_append.mp he' with he' | he'
    · exact H.decided e' he'
    · rwa [List.mem_singleton.mp he']
  trades r hr hv := by
    obtain ⟨e₀, he₀, h⟩ := H.trades r hr hv
    exact ⟨e₀, List.mem_append_left _ he₀, h⟩
  clock r hr hv := (H.clock r hr hv).imp (fun h t ht => (h t ht).trans hclock)
    fun h t ht => (h t ht).trans hclock
  apart := H.apart

/-- The trades after an execution. -/
theorem Harvesting.executed (H : s.Harvesting x) (hxy : y.id = x.id → y = x)
    (hopen : openCarryTrades y.id s.ledger = [])
    (haction : carryActionToday y.id (utcDate inputs.now) s.ledger = false)
    (hdecided : Decided y inputs i) (hclock : s.clock ≤ inputs.now)
    (hnow : inputs.now ≤ inputs.openNow) (hexec : carryExecute y inputs i s.ledger = (.ok tid, d)) :
    Harvesting x ⟨d, inputs.openNow, s.log ++ [⟨y, inputs, i, tid⟩]⟩ := by
  have hsnoc : Harvesting x
      { s with clock := inputs.openNow, log := s.log ++ [⟨y, inputs, i, tid⟩] } :=
    H.snoc hdecided (hclock.trans hnow)
  obtain ⟨hk, rfl⟩ | ⟨hk, htid, hledger⟩ :=
    openTrade_eq_id H.consistent.minted (carryExecute_eq_ok hexec)
  · exact hsnoc
  · set a := i.openArgs y inputs with ha
    have hu : s.ledger.Unused (a.row tid) :=
      H.consistent.minted.unused htid (by rintro k ⟨⟩; exact hk)
    have hconsistent : d.Consistent := by
      have hrun : ((Call.openTrade a).run inputs.env s.ledger).1.Consistent := H.consistent.run _
      rwa [carryExecute_eq_ok hexec] at hrun
    have htrades : d.trades = s.ledger.trades ++ [a.row tid] := hledger ▸ hu.spawn_trades
    have hmem {r : TradeRow} (hr : r ∈ d.trades) : r ∈ s.ledger.trades ∨ r = a.row tid := by
      rwa [htrades, List.mem_append, List.mem_singleton] at hr
    have hentry : (a.row tid).actualEntryTime = some inputs.openNow := rfl
    refine ⟨hconsistent, hsnoc.decided, fun r hr hv => ?_, fun r hr hv => ?_,
      fun r hr hv r' hr' hv' hne => ?_⟩
    · rcases hmem hr with hr | rfl
      · exact hsnoc.trades r hr hv
      · exact ⟨_, List.mem_append_right _ (List.mem_singleton_self _), hxy hv, rfl, fun _ => rfl⟩
    · rcases hmem hr with hr | rfl
      · exact hsnoc.clock r hr hv
      · refine ⟨fun t ht => ?_, fun t ht => (nomatch ht)⟩
        rw [← Option.some.inj (hentry.symm.trans ht)]
    · rcases hmem hr with hr | rfl
      · rcases hmem hr' with hr' | rfl
        · exact H.apart r hr hv r' hr' hv' hne
        · have hv'' : y.id = x.id := hv'
          rw [hv''] at hopen haction
          exact .inl (H.before hopen haction hclock hnow hr hv hentry)
      · rcases hmem hr' with hr' | rfl
        · have hv'' : y.id = x.id := hv
          rw [hv''] at hopen haction
          exact .inr (H.before hopen haction hclock hnow hr' hv' hentry)
        · exact absurd rfl hne

theorem Harvesting.tick (H : s.Harvesting x) (hxy : y.id = x.id → y = x)
    (hclock : s.clock ≤ inputs.loadNow) (hord : inputs.Ordered) :
    (s.tick y inputs).Harvesting x := by
  obtain ⟨h₁, h₂, h₃, h₄, h₅, h₆⟩ := id hord
  have hnow : s.clock ≤ inputs.now := hclock.trans (h₁.trans h₂)
  have hopen : inputs.now ≤ inputs.openNow := h₃.trans h₄
  have hend : inputs.openNow ≤ inputs.closeNow := h₅.trans h₆
  have heffect := @carryTick_effect y inputs s.ledger H.consistent hord
  rw [CarrySys.tick]
  generalize carryTick y inputs s.ledger = p at heffect
  obtain ⟨out, d⟩ := p
  dsimp only at heffect ⊢
  generalize out.opened = o at heffect
  cases heffect with
  | quiet h =>
    rw [Option.toList_none, List.map_nil, List.append_nil]
    exact H.keeps (h x.id) le_rfl (hnow.trans (hopen.trans hend))
  | opened hnone haction hdecided hexec hc =>
    exact (H.executed hxy hnone haction hdecided hnow hopen hexec).keeps (hc x.id) le_rfl hend

theorem Harvesting.step {bots : List CarryBot} (hids : (bots.map (·.id)).Nodup) (hx : x ∈ bots)
    (H : s.Harvesting x) {a : CarryAct} (h : s.step bots a = some s') : s'.Harvesting x := by
  cases a with
  | tick y inputs =>
    obtain ⟨⟨hy, hclock, hord⟩, h⟩ := Option.ite_none_right_eq_some.mp h
    cases h
    exact H.tick (List.inj_on_of_nodup_map hids hy hx) hclock hord
  | other env c now =>
    obtain ⟨⟨hother, hclock, htime⟩, h⟩ := Option.ite_none_right_eq_some.mp h
    cases h
    exact H.keeps (.run H.consistent c (hother x hx) htime) le_rfl hclock

theorem harvesting_start {d : Ledger} (hd : d.Consistent)
    (h : ∀ r ∈ d.trades, r.strategyVariant ≠ x.id) (clock : Time) :
    Harvesting x { ledger := d, clock } where
  consistent := hd
  decided _ he := nomatch he
  trades r hr hv := absurd hv (h r hr)
  clock r hr hv := absurd hv (h r hr)
  apart r hr hv := absurd hv (h r hr)

variable {bots : List CarryBot} {acts : List CarryAct}

theorem harvesting_run (hids : (bots.map (·.id)).Nodup) (hx : x ∈ bots) (hd : d.Consistent)
    (hnew : ∀ r ∈ d.trades, r.strategyVariant ≠ x.id)
    (h : run bots { ledger := d, clock } acts = some s) : s.Harvesting x :=
  Trace.invariant (fun _ _ _ H ha => H.step hids hx ha) (harvesting_start hd hnew clock) h

theorem Harvesting.pairOf (H : s.Harvesting x) {r : TradeRow} (hr : r ∈ s.ledger.trades)
    (hv : r.strategyVariant = x.id) : ∃ e ∈ s.log, e.bot = x ∧ e.tid = r.id ∧
      Decided x e.inputs e.intent ∧ r.PairOf x e.intent := by
  obtain ⟨e, he, rfl, hrow, -⟩ := H.trades r hr hv
  have hdecided := H.decided e he
  refine ⟨e, he, rfl, (congrArg TradeEntry.id hrow).symm, hdecided,
    ⟨⟨H.strategy hr hv, congrArg TradeEntry.asset hrow, congrArg TradeEntry.direction hrow⟩,
      congrArg TradeEntry.entryPrice hrow, fun hcapital => ?_, congrArg TradeEntry.exitTime hrow⟩⟩
  obtain ⟨t, sig, -, -, -, -, hi⟩ := hdecided
  refine (congrArg TradeEntry.sizeUsdt hrow).trans (congrArg some ?_)
  have hsize : e.args.sizeUsdt =
      pyOr (some e.bot.capitalUsdt) _ * (e.intent.allocationPct / 100) * e.intent.leverage := rfl
  rw [hsize, hi, show pyOr (some e.bot.capitalUsdt) _ = e.bot.capitalUsdt from if_neg hcapital,
    div_self (by norm_num), mul_one]

/-- In every run of the bots, over restarts and whatever other processes do to other variants: of
two pairs of a bot one is over before the day on which the other is opened, so that a day has one
opening at most and none after a close; and each pair is that of an intent of the bot, decided while
the week's average is positive and the exit does not trigger. -/
theorem oneTripADay (hids : (bots.map (·.id)).Nodup) (hx : x ∈ bots) (hd : d.Consistent)
    (hnew : ∀ r ∈ d.trades, r.strategyVariant ≠ x.id)
    (h : run bots { ledger := d, clock } acts = some s) :
    (∀ r ∈ s.ledger.trades, r.strategyVariant = x.id → ∀ r' ∈ s.ledger.trades,
      r'.strategyVariant = x.id → r ≠ r' → r.Before r' ∨ r'.Before r) ∧
    ∀ r ∈ s.ledger.trades, r.strategyVariant = x.id → ∃ e ∈ s.log, e.bot = x ∧ e.tid = r.id ∧
      Decided x e.inputs e.intent ∧ r.PairOf x e.intent := by
  have H := harvesting_run hids hx hd hnew h
  exact ⟨H.apart, fun r hr hv => H.pairOf hr hv⟩

/-- A tick an hour or more into the fortieth day, at one rate. -/
def steadyTick (hour : Int) (rate : ℚ) : CarryInputs where
  tables := .ok (steadyTables rate)
  loadNow := steadyNow + hour * 3_600_000_000

/-- A pair is opened, held, taken out at a bad rate, not opened again on the same day, but on the
next one. -/
def roundTrip : List CarryAct := [
  .tick carryBot (steadyTick 0 (1 / 10_000)), .tick carryBot (steadyTick 1 (1 / 10_000)),
  .tick carryBot (steadyTick 2 (-1 / 10_000)), .tick carryBot (steadyTick 3 (1 / 10_000)),
  .tick carryBot (steadyTick 24 (1 / 10_000))]

theorem oneTripADay_roundTrip : ∃ s,
    run [carryBot, carryEthBot] { ledger := .empty, clock := 0 } roundTrip = some s ∧
    s.ledger.trades.map (fun r => (r.id, r.status, r.actualEntryTime.map utcDate)) =
      [("SJ-0001", .closed, some 40), ("SJ-0002", .open_, some 41)] ∧
    ∀ r ∈ s.ledger.trades, r.strategyVariant = carryBot.id → ∃ e ∈ s.log, e.bot = carryBot ∧
      e.tid = r.id ∧ Decided carryBot e.inputs e.intent ∧ r.PairOf carryBot e.intent := by
  have hrun : (run [carryBot, carryEthBot] { ledger := .empty, clock := 0 } roundTrip).map (fun s =>
      s.ledger.trades.map (fun r => (r.id, r.status, r.actualEntryTime.map utcDate))) =
      some [("SJ-0001", .closed, some 40), ("SJ-0002", .open_, some 41)] := by
    decide +kernel
  obtain ⟨s, hs, htrades⟩ := Option.map_eq_some_iff.mp hrun
  exact ⟨s, hs, htrades, (oneTripADay (by decide) List.mem_cons_self .empty
    (fun _ h => (nomatch h)) hs).2⟩

end CarrySys

end P300
