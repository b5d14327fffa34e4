import P300.Bots.CarrySys

/-!
# The exits of the carry bots

The first tick on fresh inputs on which the exit triggers closes the pair of its variant. What the
close books is the funding of the short leg over the life of the pair less the round trip; the
prices at which the legs were opened and closed do not enter. While the exit does not trigger, the
pair stays as it is.
-/

namespace P300

open Ledger TxnStore

/-! ## The close of a pair -/

/-- What the close of a pair books. -/
structure HarvestedAt (env : Env) (now : Time) (price : ℚ) (r r' : TradeRow) : Prop where
  entry : r'.toTradeEntry = r.toTradeEntry
  status : r'.status = .closed
  exit : r'.exitPrice = some price ∧ r'.actualExitTime = some now
  pnl : ∃ size t, r.sizeUsdt = some size ∧ r.actualEntryTime = some t ∧ r'.pnlUsdt =
    some (size * (env.accruedPct r.asset t now .short - (1 / 5 + 1 / 25)) / 100)

section close

variable {env : Env} {d : Ledger} {now : Time} {price : ℚ}

/-- A pair that is open as it was opened closes at any price. -/
theorem carryClose_asOpened {a : OpenArgs} {tid : String} (hasset : a.asset ≠ "")
    (hr : d.openTrade? tid = some (a.row tid)) :
    ∃ d', carryClose env now tid price d = (.ok (), d') ∧
      (∃ r' ∈ d'.trades, HarvestedAt env now price (a.row tid) r') ∧
      ∀ r' ∈ d'.trades, r'.status = .open_ → r' ∈ d.trades ∧ r'.id ≠ tid := by
  let ca : CarryCloseArgs := {
    tradeId := tid, exitPrice := price, costPct := entryExitCostPct, now }
  have hbook : ∃ p, carryBooking env ca (a.row tid).carryCols = .ok p ∧ p.tradeId = tid ∧
      p.exitPrice = price ∧ p.exitTime = now ∧ p.pnlUsdt = a.sizeUsdt *
        (env.accruedPct a.asset a.entryTime now .short - (1 / 5 + 1 / 25)) / 100 := by
    refine ⟨_, rfl, rfl, rfl, rfl, ?_⟩
    change a.sizeUsdt * (env.accruedPct (if a.asset = "" then "BTC" else a.asset) a.entryTime now
      .short - (entryExitCostPct + 1 / 25)) / 100 = _
    rw [if_neg hasset, entryExitCostPct]
  obtain ⟨p, hp, htid, hprice, htime, hpnl⟩ := hbook
  have hrun : (Call.closeCarry ca).run env d = (d.amend tid (p.update (a.row tid).closeCols)
      p.exitTime (p.event (a.row tid).closeCols), .bool true) := by
    have htr : d.trade? tid = some (a.row tid) := by
      obtain ⟨hm, hid, -⟩ := openTrade?_eq_some hr
      rw [← hid]
      exact trade?_of_mem hm
    rw [Call.run, Call.prog, closeCarryTrade, Prog.run, Prog.runWith_select, Option.getD_none,
      show ca.tradeId = tid from rfl, htr]
    simp only [Option.map_some]
    rw [hp]
    dsimp only
    rw [← Prog.run, persistCloseAlone_run, htid, hr]
  refine ⟨_, by rw [carryClose, hrun], ⟨_, set_mem_amend hr, rfl, rfl, ⟨?_, ?_⟩, ?_⟩, ?_⟩
  · exact congrArg some hprice
  · exact congrArg some htime
  · refine ⟨_, _, rfl, rfl, congrArg some ?_⟩
    change pyOr (some 0) 0 + p.pnlUsdt = _
    rw [show pyOr (some 0) 0 = 0 from rfl, zero_add, hpnl]
    rfl
  · intro r' hr' ho
    rcases mem_amend hr hr' with rfl | hmem
    · cases ho
    · exact hmem

end close

namespace CarrySys

variable {x : CarryBot} {s : CarrySys} {inputs : CarryInputs} {r : TradeRow} {t : CarryTables}
  {sig : CarrySignal}

/-- The one open trade of the variant is what `decide` finds. -/
theorem Harvesting.openCarryTrades_eq (H : s.Harvesting x) (hr : r ∈ s.ledger.openOf x.id) :
    openCarryTrades x.id s.ledger = [r] ∧ s.ledger.openOf x.id = [r] := by
  have hone : ∀ r' ∈ s.ledger.openOf x.id, r' = r := by
    intro r' hr'
    by_contra hne
    obtain ⟨hm, hv, ho⟩ := mem_openOf.mp hr
    obtain ⟨hm', hv', ho'⟩ := mem_openOf.mp hr'
    rcases H.apart r hm hv r' hm' hv' (Ne.symm hne) with h | h
    · exact h.1 ho
    · exact h.1 ho'
  have hopen : s.ledger.openOf x.id = [r] := by
    have hnodup := s.ledger.openOf_nodup x.id
    cases hlist : s.ledger.openOf x.id with
    | nil =>
      rw [hlist] at hr
      cases hr
    | cons r₀ rows =>
      rw [hlist] at hone hnodup
      obtain rfl := hone r₀ List.mem_cons_self
      cases rows with
      | nil => rfl
      | cons r₁ rows =>
        have heq := hone r₁ (List.mem_cons_of_mem _ List.mem_cons_self)
        exact absurd (heq ▸ List.mem_cons_self) (List.nodup_cons.mp hnodup).1
  refine ⟨?_, hopen⟩
  have hcarry := H.strategy (mem_openOf.mp hr).1 (mem_openOf.mp hr).2.1
  have hfilter : [r].filter (fun r => decide (r.strategy = "CARRY")) = [r] := by
    simp [hcarry]
  rw [openCarryTrades, hopen, hfilter]
  rfl

/-- A tick without an intent, up to the backstop. -/
theorem carryTick_of_decide {d d₁ : Ledger} {st : CarryStatus} (hfresh : inputs.staleMgmt = .ok [])
    (hdecide : carryDecide x inputs d = (.ok (none, st), d₁))
    (hdue : ∀ r ∈ d₁.openOf x.id, ∀ t ∈ r.exitTime, inputs.exitsNow < t) :
    (carryTick x inputs d).2 = d₁ := by
  rw [carryTick, hfresh]
  dsimp only
  rw [carryEnter, hdecide]
  exact closeDueTrades_of_not_due hdue

/-- `decide` on an open pair. -/
theorem carryDecide_of_open {d d₁ : Ledger} {closed : List String}
    (hreads : inputs.actionError = none ∧ inputs.openError = none) (htables : inputs.tables = .ok t)
    (hsig : evaluateToday (loadRecentDailyFunding x.asset t inputs.loadNow
      (utcDate inputs.loadedNow) (exitCumDays + 7)) = some sig)
    (hopen : openCarryTrades x.id d = [r]) :
    (sig.exitTrigger = false → carryDecide x inputs d = (.ok (none, .noAction), d)) ∧
    (sig.exitTrigger = true → carrySweep inputs sig.spotClose [r] [] d = (.ok closed, d₁) →
      carryDecide x inputs d = (.ok (none, .closed closed), d₁)) := by
  rw [carryDecide, htables]
  dsimp only
  rw [hsig]
  dsimp only
  rw [hreads.1]
  dsimp only
  rw [hreads.2]
  dsimp only
  rw [hopen]
  refine ⟨fun htrigger => ?_, fun htrigger hsweep => ?_⟩
  · simp [htrigger]
  · simp [htrigger, hsweep]

variable {bots : List CarryBot} {acts : List CarryAct} {d : Ledger} {clock : Time}

/-- In every state that a run reaches, a tick on fresh inputs closes the open pair exactly if the
exit triggers: it then books the short's funding since the entry less the costs, whatever the
prices, and leaves the variant without an open trade; otherwise the pair is as it was. -/
theorem harvested (hids : (bots.map (·.id)).Nodup) (hx : x ∈ bots) (hd : d.Consistent)
    (hnew : ∀ r ∈ d.trades, r.strategyVariant ≠ x.id)
    (h : run bots { ledger := d, clock } acts = some s) (hr : r ∈ s.ledger.openOf x.id)
    (hfresh : inputs.staleMgmt = .ok []) (hreads : inputs.actionError = none ∧
      inputs.openError = none) (htables : inputs.tables = .ok t)
    (hsig : evaluateToday (loadRecentDailyFunding x.asset t inputs.loadNow
      (utcDate inputs.loadedNow) (exitCumDays + 7)) = some sig)
    (hdue : inputs.exitsNow < noScheduledExit) :
    (sig.exitTrigger = true →
      (∃ r' ∈ (s.tick x inputs).ledger.trades,
        HarvestedAt inputs.env inputs.sweepNow sig.spotClose r r') ∧
      (s.tick x inputs).ledger.openOf x.id = []) ∧
    (sig.exitTrigger = false → (s.tick x inputs).ledger.openOf x.id = [r]) := by
  have H := harvesting_run hids hx hd hnew h
  obtain ⟨hopen, hone⟩ := H.openCarryTrades_eq hr
  obtain ⟨hm, hv, ho⟩ := mem_openOf.mp hr
  have htick : (s.tick x inputs).ledger = (carryTick x inputs s.ledger).2 := rfl
  refine ⟨fun htrigger => ?_, fun htrigger => ?_⟩
  · obtain ⟨e, he, hex, hrow, hlive⟩ := H.trades r hm hv
    have hrow := hlive ho
    have hid : r.id = e.tid := congrArg (fun r : TradeRow => r.id) hrow
    have hasset : e.args.asset ≠ "" := by
      change e.bot.asset.name ≠ ""
      cases e.bot.asset <;> decide
    have hfound : s.ledger.openTrade? r.id = some (e.args.row r.id) := by
      rw [openTrade?_of_mem hm ho, hid, ← hrow]
    obtain ⟨d', hclose, ⟨r', hr', hat⟩, hrest⟩ :=
      @carryClose_asOpened inputs.env _ inputs.sweepNow sig.spotClose _ _ hasset hfound
    have hnone : d'.openOf x.id = [] := by
      refine List.eq_nil_iff_forall_not_mem.mpr fun r₁ hr₁ => ?_
      obtain ⟨hm₁, hv₁, ho₁⟩ := mem_openOf.mp hr₁
      obtain ⟨hmem, hne⟩ := hrest r₁ hm₁ ho₁
      have hin : r₁ ∈ s.ledger.openOf x.id := mem_openOf.mpr ⟨hmem, hv₁, ho₁⟩
      rw [hone, List.mem_singleton] at hin
      exact hne (congrArg (fun r : TradeRow => r.id) hin)
    have hdecide := (carryDecide_of_open hreads htables hsig hopen).2 htrigger
      (by rw [carrySweep, hclose]; rfl)
    have hledger : (carryTick x inputs s.ledger).2 = d' :=
      carryTick_of_decide hfresh hdecide fun r₁ hr₁ => by rw [hnone] at hr₁; cases hr₁
    rw [htick, hledger]
    rw [← hid] at hrow
    rw [← hrow] at hat
    exact ⟨⟨r', hr', hat⟩, hnone⟩
  · have hdecide := (@carryDecide_of_open _ _ _ _ _ _ s.ledger [] hreads htables hsig hopen).1
      htrigger
    have hledger : (carryTick x inputs s.ledger).2 = s.ledger := by
      refine carryTick_of_decide hfresh hdecide fun r₁ hr₁ t ht => ?_
      rw [hone, List.mem_singleton] at hr₁
      obtain ⟨e, -, -, -, -, hpair⟩ := H.pairOf hm hv
      rw [hr₁, hpair.exit] at ht
      rw [← Option.some.inj ht]
      exact hdue
    rw [htick, hledger, hone]

/-- The pair that is held at a good rate is taken out at a bad one. -/
theorem harvested_roundTrip : ∃ s r,
    run [carryBot, carryEthBot] { ledger := .empty, clock := 0 } (roundTrip.take 2) = some s ∧
    r ∈ s.ledger.openOf carryBot.id ∧
    (s.tick carryBot (steadyTick 2 (-1 / 10_000))).ledger.openOf carryBot.id = [] := by
  have hrun : (run [carryBot, carryEthBot] { ledger := .empty, clock := 0 } (roundTrip.take 2)).map
      (fun s => (s.ledger.openOf carryBot.id).map (·.id)) = some ["SJ-0001"] := by
    decide +kernel
  obtain ⟨s, hs, hopen⟩ := Option.map_eq_some_iff.mp hrun
  obtain ⟨r, hr, -⟩ := List.mem_map.mp (hopen ▸ List.mem_singleton_self "SJ-0001")
  have heval : (evaluateToday (loadRecentDailyFunding .btc (steadyTables (-1 / 10_000))
      (steadyTick 2 (-1 / 10_000)).loadNow (utcDate (steadyTick 2 (-1 / 10_000)).loadedNow)
      (exitCumDays + 7))).map (·.exitTrigger) = some true := by
    decide +kernel
  obtain ⟨sig, hsig, htrigger⟩ := Option.map_eq_some_iff.mp heval
  exact ⟨s, r, hs, hr, ((harvested (by decide) List.mem_cons_self .empty (fun _ h => (nomatch h)) hs
    hr rfl ⟨rfl, rfl⟩ rfl hsig (by decide)).1 htrigger).2⟩

end CarrySys

end P300
