import P300.Ledger.Exposure
import P300.Ledger.OpenOnce
import P300.Ledger.Replay

/-!
# What becomes of the trades of a variant

A bot opens the trades of its variant. Other calls open and resize trades of other variants, and
close any trade: to the trades of a variant they do nothing else.
-/

namespace P300

open Ledger TxnStore

/-! ## Trades of one variant -/

/-- The variant for which a call opens a trade or changes an open one without closing it. -/
def Call.variantOf (d : Ledger) : Call → Option String
  | .openTrade a => some a.variantId
  | .scale a => (d.openTrade? a.tradeId).map (·.strategyVariant)
  | .leverage a => (d.openTrade? a.tradeId).map (·.strategyVariant)
  | .flip a => (d.openTrade? a.tradeId).map (·.strategyVariant)
  | .closePerp _ | .closeCarry _ | .persistClose _ => none

/-! ## Closed trades -/

namespace Ledger

/-- Trades that are closed in `d` are the same in `d'`. -/
def KeepsClosed (d d' : Ledger) : Prop := ∀ r ∈ d.trades, r.status ≠ .open_ → r ∈ d'.trades

variable {d d' d'' : Ledger} {tid : String} {u : TradeUpdate} {now : Time} {e : RecordArgs}
  {r row : TradeRow} {env : Env}

theorem KeepsClosed.refl (d : Ledger) : d.KeepsClosed d := fun _ h _ => h

theorem KeepsClosed.trans (h : d.KeepsClosed d') (h' : d'.KeepsClosed d'') : d.KeepsClosed d'' :=
  fun r hr hs => h' r (h r hr hs) hs

theorem keepsClosed_amend : d.KeepsClosed (d.amend tid u now e) := by
  intro r hr hs
  rw [amend_trades]
  exact List.mem_map.mpr ⟨r, hr, if_neg fun h => hs h.2⟩

theorem keepsClosed_spawn (hu : d.Unused row) : d.KeepsClosed (d.spawn row now e) := by
  intro r hr _
  rw [hu.spawn_trades]
  exact List.mem_append_left _ hr

theorem keepsClosed_run (hd : d.Minted) (c : Call) : d.KeepsClosed (c.run env d).1 := by
  rcases c.run_cases env hd with hc | hc
  · rw [hc]
    exact .refl d
  generalize (c.run env d).1 = d' at hc
  cases hc with
  | opened hk => exact keepsClosed_spawn (hd.unused rfl (by rintro k ⟨⟩; exact hk))
  | scaled | leveraged | closed => exact keepsClosed_amend
  | @flipped a r mid hr _ _ hmid =>
    have hm : mid.Minted := hmid ▸ hd.amend (has_of_openTrade? hr)
    have hfirst : d.KeepsClosed mid := hmid ▸ keepsClosed_amend
    exact hfirst.trans (keepsClosed_spawn (hm.unused rfl (by rintro k ⟨⟩)))

end Ledger

/-! ## Closes by a time -/

theorem le_of_validateEventTime {entryDt observedNow at_ : Time} {laterEvents : List Time}
    {u : Unit} (h : validateEventTime entryDt observedNow laterEvents at_ = .ok u) :
    entryDt ≤ at_ ∧ at_ ≤ observedNow := by
  rw [validateEventTime] at h
  split at h
  · cases h
  · next hnot => exact not_not.mp hnot

/-- A close is booked at the time of the call at the latest. -/
theorem Call.Books.exitTime_le {env : Env} {d : Ledger} {c : Call} {p : PersistArgs}
    (h : c.Books env d p) : p.exitTime ≤ c.eventTime := by
  cases h with
  | @perp a r p comps _ hp =>
    unfold perpCloseBooking at hp
    obtain ⟨entryDt, -, hp⟩ := of_bind_ok hp
    obtain ⟨-, -, hp⟩ := of_bind_ok hp
    obtain ⟨fill, hfill, hp⟩ := of_bind_ok hp
    obtain ⟨basis, -, hp⟩ := of_bind_ok hp
    obtain ⟨qty, -, hp⟩ := of_bind_ok hp
    obtain ⟨size, -, hp⟩ := of_bind_ok hp
    obtain ⟨c', -, hp⟩ := of_bind_ok hp
    cases hp
    change fill.2 ≤ a.exitDt.getD a.now
    rw [perpFill] at hfill
    split at hfill
    · next hnone =>
      split at hfill
      · cases hfill
      · obtain ⟨stop, -, hfill⟩ := of_bind_ok hfill
        split at hfill
        · next earlier =>
          obtain ⟨_, hvalid, hfill⟩ := of_bind_ok hfill
          cases hfill
          rw [hnone.1]
          exact (le_of_validateEventTime hvalid).2
        · cases hfill
          exact le_rfl
    · cases hfill
      exact le_rfl
  | carry _ hp =>
    unfold carryBooking at hp
    obtain ⟨entryDt, -, hp⟩ := of_bind_ok hp
    obtain ⟨size, -, hp⟩ := of_bind_ok hp
    cases hp
    exact le_rfl
  | persist => exact le_rfl

namespace Ledger

/-- From `d` to `d'` trades of the variant `v` are closed, out at `t` at the latest, and nothing
else is done to them. -/
structure ClosesBy (v : String) (t : Time) (d d' : Ledger) : Prop where
  consistent : d'.Consistent
  grows : d.Grows d'
  rows : ∀ r' ∈ d'.trades, r'.strategyVariant = v →
    (r' ∈ d.trades ∧ d'.eventsOf r'.id = d.eventsOf r'.id) ∨
    r'.status ≠ .open_ ∧ (∃ x ∈ r'.actualExitTime, x ≤ t) ∧
      ∃ r ∈ d.trades, r.status = .open_ ∧ r.toTradeEntry = r'.toTradeEntry

/-- From `d` to `d'` trades of the variant `v` are closed, and nothing else is done to them. -/
def OnlyCloses (v : String) (d d' : Ledger) : Prop := ∃ t, d.ClosesBy v t d'

variable {v tid : String} {t t' : Time} {d d' d'' : Ledger} {r row : TradeRow} {u : TradeUpdate}
  {now : Time} {e : RecordArgs} {env : Env}

theorem ClosesBy.refl (v : String) (t : Time) (hd : d.Consistent) : d.ClosesBy v t d :=
  ⟨hd, .refl d, fun _ hr _ => .inl ⟨hr, rfl⟩⟩

theorem ClosesBy.mono (h : d.ClosesBy v t d') (ht : t ≤ t') : d.ClosesBy v t' d' where
  consistent := h.consistent
  grows := h.grows
  rows r' hr' hv := by
    refine (h.rows r' hr' hv).imp_right fun ⟨hstatus, ⟨x, hx, hle⟩, hr⟩ => ?_
    exact ⟨hstatus, ⟨x, hx, hle.trans ht⟩, hr⟩

theorem ClosesBy.trans (h : d.ClosesBy v t d') (h' : d'.ClosesBy v t' d'') (ht : t ≤ t') :
    d.ClosesBy v t' d'' where
  consistent := h'.consistent
  grows := h.grows.trans h'.grows
  rows r'' hr'' hv := by
    rcases h'.rows r'' hr'' hv with ⟨hr', hev⟩ | ⟨hstatus, hexit, r', hr', hopen, hentry⟩
    · exact ((h.mono ht).rows r'' hr' hv).imp_left fun ⟨hr, hev'⟩ => ⟨hr, hev.trans hev'⟩
    · rcases h.rows r' hr' ((congrArg TradeEntry.strategyVariant hentry).trans hv) with
        ⟨hr, -⟩ | hclosed
      · exact .inr ⟨hstatus, hexit, r', hr, hopen, hentry⟩
      · exact absurd hopen hclosed.1

/-- An update of a trade of another variant, or one that closes. -/
theorem ClosesBy.amend (hd : (d.amend tid u now e).Consistent) (hr : d.openTrade? tid = some r)
    (he : e.tradeId = tid)
    (h : r.strategyVariant ≠ v ∨ (r.set u).status ≠ .open_ ∧
      ∃ x ∈ (r.set u).actualExitTime, x ≤ t) :
    d.ClosesBy v t (d.amend tid u now e) where
  consistent := hd
  grows := grows_amend
  rows r' hr' hv := by
    rcases mem_amend hr hr' with rfl | ⟨hmem, hne⟩
    · obtain ⟨hstatus, hexit⟩ := h.resolve_left fun hne => hne hv
      obtain ⟨hmem, -, hopen⟩ := openTrade?_eq_some hr
      exact .inr ⟨hstatus, hexit, r, hmem, hopen, rfl⟩
    · refine .inl ⟨hmem, ?_⟩
      rw [eventsOf_amend, if_neg fun h' => hne (h'.symm.trans he), List.append_nil]

/-- A new trade of another variant. -/
theorem ClosesBy.spawn (hd : (d.spawn row now e).Consistent) (hu : d.Unused row)
    (he : e.tradeId = row.id) (h : row.strategyVariant ≠ v) :
    d.ClosesBy v t (d.spawn row now e) where
  consistent := hd
  grows := hu.grows he
  rows r' hr' hv := by
    rw [hu.spawn_trades, List.mem_append, List.mem_singleton] at hr'
    rcases hr' with hr' | rfl
    · refine .inl ⟨hr', ?_⟩
      have hne : row.id ≠ r'.id := fun hid => hu.id (hid ▸ List.mem_map_of_mem hr')
      rw [hu.eventsOf_spawn he, if_neg hne]
    · exact absurd hv h

/-- The step lemma. -/
theorem ClosesBy.effect {c : Call} (hd : d.Consistent) (hc : c.Effect env d d')
    (hv : c.variantOf d ≠ some v) (ht : c.eventTime ≤ t) : d.ClosesBy v t d' := by
  have hd' := hd.effect hc
  cases hc with
  | @opened a hk =>
    refine .spawn hd' (hd.minted.unused rfl (by rintro k ⟨⟩; exact hk)) rfl fun h => hv ?_
    exact congrArg some h
  | scaled hr =>
    rw [Call.variantOf, hr] at hv
    exact .amend hd' hr rfl (.inl fun h => hv (congrArg some h))
  | leveraged hr =>
    rw [Call.variantOf, hr] at hv
    exact .amend hd' hr rfl (.inl fun h => hv (congrArg some h))
  | @flipped a r mid hr _ _ hmid =>
    rw [Call.variantOf, hr] at hv
    have hne : r.strategyVariant ≠ v := fun h => hv (congrArg some h)
    have hm : mid.Consistent :=
      hmid ▸ hd.amend hr rfl (hd.recorded_terminal _ hr rfl (.inr rfl)) (FlipArgs.matches_ ..)
    have hfirst : d.ClosesBy v t mid := by
      rw [hmid] at hm ⊢
      exact .amend hm hr rfl (.inl hne)
    exact hfirst.trans (.spawn hd' (hm.minted.unused rfl (by rintro k ⟨⟩)) rfl hne) le_rfl
  | closed hbooks hr =>
    refine .amend hd' hr rfl (.inr ⟨fun h => ?_, _, rfl, hbooks.exitTime_le.trans ht⟩)
    cases h

theorem ClosesBy.run (hd : d.Consistent) (c : Call) (hv : c.variantOf d ≠ some v)
    (ht : c.eventTime ≤ t) : d.ClosesBy v t (c.run env d).1 := by
  rcases c.run_cases env hd.minted with hc | hc
  · rw [hc]
    exact .refl v t hd
  · exact .effect hd hc hv ht

/-! ## Closes at any time -/

theorem OnlyCloses.refl (v : String) (hd : d.Consistent) : d.OnlyCloses v d := ⟨0, .refl v 0 hd⟩

theorem OnlyCloses.trans (h : d.OnlyCloses v d') (h' : d'.OnlyCloses v d'') :
    d.OnlyCloses v d'' := by
  obtain ⟨t, h⟩ := h
  obtain ⟨t', h'⟩ := h'
  exact ⟨max t t', h.trans (h'.mono (le_max_right t t')) (le_max_left t t')⟩

theorem OnlyCloses.run (hd : d.Consistent) (c : Call) (hv : c.variantOf d ≠ some v) :
    d.OnlyCloses v (c.run env d).1 := ⟨_, .run hd c hv le_rfl⟩

theorem OnlyCloses.consistent (h : d.OnlyCloses v d') : d'.Consistent := h.choose_spec.consistent

theorem OnlyCloses.grows (h : d.OnlyCloses v d') : d.Grows d' := h.choose_spec.grows

theorem OnlyCloses.rows (h : d.OnlyCloses v d') {r' : TradeRow} (hr' : r' ∈ d'.trades)
    (hv : r'.strategyVariant = v) : (r' ∈ d.trades ∧ d'.eventsOf r'.id = d.eventsOf r'.id) ∨
      r'.status ≠ .open_ ∧ ∃ r ∈ d.trades, r.toTradeEntry = r'.toTradeEntry := by
  refine (h.choose_spec.rows r' hr' hv).imp_right fun ⟨hstatus, _, r, hr, _, hentry⟩ => ?_
  exact ⟨hstatus, r, hr, hentry⟩

theorem OnlyCloses.openOf_subset (h : d.OnlyCloses v d') (hr : r ∈ d'.openOf v) :
    r ∈ d.openOf v ∧ d'.eventsOf r.id = d.eventsOf r.id := by
  obtain ⟨hmem, hv, ho⟩ := mem_openOf.mp hr
  rcases h.rows hmem hv with ⟨hr', hev⟩ | ⟨hstatus, -⟩
  · exact ⟨mem_openOf.mpr ⟨hr', hv, ho⟩, hev⟩
  · exact absurd ho hstatus

end Ledger

/-! ## Trades that are closed as they were opened -/

/-- `r'` is the trade `r` after the close. -/
structure PerpCloseArgs.Closed (a : PerpCloseArgs) (env : Env) (r r' : TradeRow) : Prop where
  entry : r'.toTradeEntry = r.toTradeEntry
  status : r'.status = .closed
  exit : r'.exitPrice = some a.exitPrice ∧ r'.actualExitTime = some a.now
  pnl : ∃ basis qty size t, r.entryPrice = some basis ∧ r.qty = some qty ∧ r.sizeUsdt = some size ∧
    r.actualEntryTime = some t ∧ r'.pnlUsdt = some ((a.exitPrice - basis) * qty -
      size * (a.costBpRt + a.slippageBpRt) / 10_000 +
      size * env.accruedPct r.asset t a.now .long / 100)

section asOpened

variable {env : Env} {d : Ledger} {r : TradeRow}

/-- A close that can be booked is booked. -/
theorem closePerpTrade_run {a : PerpCloseArgs} {p : PersistArgs} {c : CloseComponents}
    (hr : d.openTrade? a.tradeId = some r)
    (hp : perpCloseBooking env a r ((d.eventsOf a.tradeId).map (·.eventTime)) = .ok (p, c)) :
    (closePerpTrade env a).run d =
      (d.amend a.tradeId (p.update r.closeCols) p.exitTime (p.event r.closeCols), .none) := by
  have htid : p.tradeId = a.tradeId := by
    obtain ⟨_, _, _, _, -, -, -, -, h⟩ := perpCloseBooking_spec hp
    rw [h]
  rw [closePerpTrade, Prog.run, Prog.runWith_beginImmediate, Prog.runWith_select, Option.getD_none,
    Option.getD_some, hr]
  simp only [Prog.runWith_select, Option.getD_some]
  rw [hp]
  dsimp only
  rw [persistClose_runWith rfl, Option.getD_some, htid, hr]
  rfl

theorem validateEventTime_now {now entryDt : Time} {laterEvents : List Time} (h : entryDt ≤ now)
    (hlater : ∀ t ∈ laterEvents, t ≤ now) :
    validateEventTime entryDt now laterEvents now = .ok () := by
  have hany : (laterEvents.any fun t => decide (t > now)) = false :=
    List.any_eq_false.mpr fun t ht hlt => absurd (of_decide_eq_true hlt) (not_lt.mpr (hlater t ht))
  rw [validateEventTime, if_neg (not_not_intro ⟨h, le_rfl⟩), hany]
  rfl

/-- A long trade that is open as it was opened closes at the price and the clock of the call. -/
theorem closePerp_asOpened {a : OpenArgs} {ca : PerpCloseArgs} (hlong : a.direction = .long)
    (hstrategy : a.sleeveName.toUpper.toUpper ∉ ["ADX", "THU_BEAR"]) (hexit : ca.exitDt = none)
    (hfunding : ca.applyFunding = true) (hr : d.openTrade? ca.tradeId = some (a.row ca.tradeId))
    (hev : d.eventsOf ca.tradeId = [(a.event ca.tradeId).row a.now 0])
    (hle : a.entryTime ≤ ca.now) :
    ∃ d', (Call.closePerp ca).run env d = (d', .none) ∧
      (∃ r' ∈ d'.trades, ca.Closed env (a.row ca.tradeId) r') ∧
      ∀ r ∈ d.trades, r.id ≠ ca.tradeId → r ∈ d'.trades ∧ d'.eventsOf r.id = d.eventsOf r.id := by
  have hat : ca.exitDt.getD ca.now = ca.now := by rw [hexit, Option.getD_none]
  have hbook : ∃ p c, perpCloseBooking env ca (a.row ca.tradeId)
      ((d.eventsOf ca.tradeId).map (·.eventTime)) = .ok (p, c) ∧ p.tradeId = ca.tradeId ∧
      p.exitPrice = ca.exitPrice ∧ p.exitTime = ca.now ∧
      p.pnlUsdt = (ca.exitPrice - a.entryPrice) * a.qty -
        a.sizeUsdt * (ca.costBpRt + ca.slippageBpRt) / 10_000 +
        a.sizeUsdt * env.accruedPct a.asset a.entryTime ca.now .long / 100 := by
    have hevents : (d.eventsOf ca.tradeId).map (·.eventTime) = [a.entryTime] := by
      rw [hev, List.map_singleton]
      rfl
    have hvalid : validateEventTime a.entryTime ca.now [a.entryTime] ca.now = .ok () :=
      validateEventTime_now hle fun t ht => List.mem_singleton.mp ht ▸ hle
    have hfill : perpFill env ca (a.row ca.tradeId) a.entryTime [a.entryTime] =
        .ok (ca.exitPrice, ca.now) := by
      rw [perpFill, hat, if_neg fun h => hstrategy h.2]
    have hcompute : ∃ c, computePerpClose env (a.row ca.tradeId).direction a.entryPrice
        ca.exitPrice a.qty a.sizeUsdt a.asset a.entryTime ca.now ca.costBpRt ca.slippageBpRt
        ca.applyFunding = .ok c ∧ c.pnlUsdt = (ca.exitPrice - a.entryPrice) * a.qty -
          a.sizeUsdt * (ca.costBpRt + ca.slippageBpRt) / 10_000 +
          a.sizeUsdt * env.accruedPct a.asset a.entryTime ca.now .long / 100 := by
      rw [show (a.row ca.tradeId).direction = .long from hlong, hfunding]
      exact ⟨_, rfl, rfl⟩
    obtain ⟨c, hc, hpnl⟩ := hcompute
    refine ⟨⟨ca.tradeId, ca.exitPrice, ca.now, c.pnlUsdt, c.pnlPct, c.costUsdt⟩, c, ?_, rfl, rfl,
      rfl, hpnl⟩
    have htime : pyTime (a.row ca.tradeId).actualEntryTime = .ok a.entryTime := rfl
    have hbasis : pyFloat ((a.row ca.tradeId).avgEntryPrice <|> (a.row ca.tradeId).entryPrice) =
      .ok a.entryPrice := rfl
    have hqty : pyFloat ((a.row ca.tradeId).currentQty <|> (a.row ca.tradeId).qty) =
      .ok a.qty := rfl
    have hsize : pyFloat ((a.row ca.tradeId).currentSizeUsdt <|> (a.row ca.tradeId).sizeUsdt) =
      .ok a.sizeUsdt := rfl
    rw [hevents, perpCloseBooking, htime, ok_bind, hat, hvalid, ok_bind, hfill, ok_bind, hbasis,
      ok_bind, hqty, ok_bind, hsize, ok_bind]
    change computePerpClose env (a.row ca.tradeId).direction a.entryPrice ca.exitPrice a.qty
      a.sizeUsdt a.asset a.entryTime ca.now ca.costBpRt ca.slippageBpRt ca.applyFunding >>= _ = _
    rw [hc]
    rfl
  obtain ⟨p, c, hp, htid, hprice, htime, hpnl⟩ := hbook
  have hrun : (Call.closePerp ca).run env d = _ := closePerpTrade_run hr hp
  refine ⟨_, hrun, ⟨_, set_mem_amend hr, rfl, rfl, ⟨?_, ?_⟩, ?_⟩, fun r hm hne => ⟨?_, ?_⟩⟩
  · exact congrArg some hprice
  · exact congrArg some htime
  · refine ⟨_, _, _, _, rfl, rfl, rfl, rfl, congrArg some ?_⟩
    change pyOr (some 0) 0 + p.pnlUsdt = _
    rw [show pyOr (some 0) 0 = 0 from rfl, zero_add, hpnl]
    rfl
  · exact mem_amend_of_ne hm hne
  · rw [eventsOf_amend, if_neg fun h => hne (h.symm.trans htid), List.append_nil]

end asOpened

/-! ## Opens -/

/-- An open that raises leaves the ledger as it was. -/
theorem openTrade_raised {env : Env} {d d' : Ledger} (hd : d.Minted) {a : OpenArgs}
    {reply : Reply} (h : (Call.openTrade a).run env d = (d', reply))
    (hreply : ∀ tid, reply ≠ .id tid) : d' = d := by
  rw [Call.run, Call.prog] at h
  cases ha : a.standingDown with
  | some reason =>
    rw [openPaperTrade, ha] at h
    cases h
    rfl
  | none =>
    rw [openPaperTrade_run hd a ha] at h
    split at h
    · cases h
      rfl
    · cases h
      exact absurd rfl (hreply _)

/-- An open that returns an id finds the key, or inserts the row. -/
theorem openTrade_eq_id {env : Env} {d d' : Ledger} (hd : d.Minted) {a : OpenArgs} {tid : String}
    (h : (Call.openTrade a).run env d = (d', .id tid)) :
    d.idOfKey? a.uniqueKey = some tid ∧ d' = d ∨
    d.idOfKey? a.uniqueKey = none ∧ tid = d.nextSjId ∧
      d' = d.spawn (a.row tid) a.now (a.event tid) := by
  rw [Call.run, Call.prog] at h
  cases ha : a.standingDown with
  | some reason =>
    rw [openPaperTrade, ha] at h
    cases h
  | none =>
    rw [openPaperTrade_run hd a ha] at h
    split at h
    · next hk =>
      cases h
      exact .inl ⟨hk, rfl⟩
    · next hk =>
      cases h
      exact .inr ⟨hk, rfl, rfl⟩

section

variable {d : Ledger} {r : TradeRow}

theorem openTrade?_of_mem (hr : r ∈ d.trades) (ho : r.status = .open_) :
    d.openTrade? r.id = some r := by
  cases hf : d.openTrade? r.id with
  | none => exact absurd (decide_eq_true ⟨rfl, ho⟩) (List.find?_eq_none.mp hf r hr)
  | some r' =>
    obtain ⟨hmem, hid, -⟩ := openTrade?_eq_some hf
    rw [eq_of_id hmem hr hid]

end

end P300
