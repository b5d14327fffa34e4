import P300.Ledger.Concurrency

/-!
# Closing a trade from several processes

Any number of `close_perp_trade` and `close_carry_trade` calls race for one open trade. The first of
them to commit is the only one that changes anything (`closedBy_invariant`): from then on the
conditional `UPDATE` of the others matches no row. A call may also refuse the close and raise, so
the trade is closed as soon as one call ends in any other way, and not before.
-/

namespace P300

open TxnStore Ledger

/-- A call that closes the trade `tid` and does nothing else. -/
def Call.Closes (tid : String) : Call → Prop
  | .closePerp a => a.tradeId = tid
  | .closeCarry a => a.tradeId = tid
  | .persistClose a => a.tradeId = tid
  | _ => False

/-- What the close `p` of the open row `r` makes of `d`. -/
abbrev Ledger.closed (d : Ledger) (r : TradeRow) (p : PersistArgs) : Ledger :=
  d.amend p.tradeId (p.update r.closeCols) p.exitTime (p.event r.closeCols)

section closes

variable {env : Env} {c : Call} {d : Ledger} {tid : String} {r : TradeRow}

/-- On its open trade a close refuses and raises, or it books. -/
theorem Call.Closes.run (env : Env) (hc : c.Closes tid) (hr : d.openTrade? tid = some r) :
    (∃ e, c.run env d = (d, .raised e)) ∨
      ∃ p reply, c.Books env d p ∧ p.tradeId = tid ∧ (∀ e, reply ≠ .raised e) ∧
        c.run env d = (d.closed r p, reply) := by
  cases c with
  | closePerp a =>
    rw [Call.run, Call.prog, closePerpTrade, Prog.run, Prog.runWith_beginImmediate,
      Prog.runWith_select, Option.getD_none, Option.getD_some, show a.tradeId = tid from hc, hr]
    simp only [Prog.runWith_select, Option.getD_some]
    split
    · next e _ => exact .inl ⟨e, rfl⟩
    · next p comps hp =>
      obtain ⟨_, _, _, _, -, -, -, -, he⟩ := perpCloseBooking_spec hp
      have hid : p.tradeId = tid := by rw [he]; exact hc
      have hb : (Call.closePerp a).Books env d p :=
        .perp (by rw [hc]; exact hr) (by rw [hc]; exact hp)
      rw [persistClose_runWith rfl, Option.getD_some, hid, hr]
      exact .inr ⟨p, .none, hb, hid, (by simp), by rw [closed, hid]; rfl⟩
  | closeCarry a =>
    have htr : d.trade? tid = some r := by
      obtain ⟨hm, rfl, -⟩ := openTrade?_eq_some hr
      exact trade?_of_mem hm
    rw [Call.run, Call.prog, closeCarryTrade, Prog.run, Prog.runWith_select, Option.getD_none,
      show a.tradeId = tid from hc, htr]
    simp only [Option.map_some]
    split
    · next e _ => exact .inl ⟨e, rfl⟩
    · next p hp =>
      have hid : p.tradeId = tid := (carryBooking_tradeId hp).trans hc
      have hb : (Call.closeCarry a).Books env d p := .carry (by rw [hc]; exact htr) hp
      rw [← Prog.run, persistCloseAlone_run, hid, hr]
      exact .inr ⟨p, .bool true, hb, hid, (by simp), by rw [closed, hid]⟩
  | persistClose p =>
    have hid : p.tradeId = tid := hc
    rw [Call.run, Call.prog, persistCloseAlone_run, hid, hr]
    exact .inr ⟨p, .bool true, .persist, hid, (by simp), by rw [closed, hid]⟩
  | openTrade | scale | leverage | flip => exact hc.elim

/-- A close whose trade is no longer open changes nothing, whatever it has read before. -/
theorem Call.Closes.lost {P : Ledger → Prop} {p : Prog Ledger Reply} (hc : c.Closes tid)
    (hp : (c.prog env).ReadsIn P p) (hcl : d.openTrade? tid = none) : (p.run d).1 = d := by
  cases c with
  | closePerp a =>
    rw [show p = closePerpTrade env a from hp, closePerpTrade, Prog.run,
      Prog.runWith_beginImmediate, Prog.runWith_select, Option.getD_none, Option.getD_some,
      show a.tradeId = tid from hc, hcl]
    rfl
  | closeCarry a =>
    -- what is left after a first read of `d'`
    have hlost : ∀ k, closeCarryTrade env a =
        .select (fun d => (d.trade? a.tradeId).map (·.carryCols)) k →
        ∀ o p', (k o).ReadsIn P p' → (p'.run d).1 = d := by
      intro k hk o p' h
      cases hk
      cases o with
      | none =>
        rw [show p' = .ret .none from h]
        rfl
      | some row =>
        dsimp only at h
        split at h
        · rw [show p' = .ret _ from h]
          rfl
        · next b hb =>
          have hid : b.tradeId = tid := (carryBooking_tradeId hb).trans hc
          rw [persistCloseAlone_lost h (hid ▸ hcl)]
    rcases hp with rfl | ⟨d', -, hp⟩
    · have h := hlost _ rfl ((d.trade? a.tradeId).map (·.carryCols)) _ (.refl P _)
      exact h
    · exact hlost _ rfl _ p hp
  | persistClose a =>
    have hid : a.tradeId = tid := hc
    rw [persistCloseAlone_lost hp (hid ▸ hcl)]
  | openTrade | scale | leverage | flip => exact hc.elim

end closes

/-! ## The race -/

section race

variable {ι : Type} {env : Env} {calls : ι → Call} {d₀ d : Ledger} {tid : String} {r₀ : TradeRow}

/-- One of the calls has closed the trade, and nothing else has happened. -/
def ClosedBySome (env : Env) (calls : ι → Call) (tid : String) (d₀ : Ledger) (r₀ : TradeRow)
    (d : Ledger) : Prop :=
  ∃ i p, (calls i).Books env d₀ p ∧ p.tradeId = tid ∧ d = d₀.closed r₀ p

theorem ClosedBySome.not_open (hr : d₀.openTrade? tid = some r₀)
    (h : ClosedBySome env calls tid d₀ r₀ d) : d.openTrade? tid = none := by
  obtain ⟨i, p, -, rfl, rfl⟩ := h
  exact openTrade?_amend hr (fun h => nomatch h)

theorem ClosedBySome.ne (hr : d₀.openTrade? tid = some r₀)
    (h : ClosedBySome env calls tid d₀ r₀ d) : d ≠ d₀ := by
  rintro rfl
  rw [h.not_open hr] at hr
  cases hr

/-- The ledger does not change, or it changes once. -/
def Once (d₀ d d' : Ledger) : Prop := d = d₀ ∨ d' = d

/-- What a client has read when it ends on the untouched ledger is the untouched ledger. -/
theorem readsAt_of_once {p₀ p : Prog Ledger Reply} {I : Ledger → Prop}
    (hp : p₀.ReadsIn (fun d' => I d' ∧ Once d₀ d' d₀) p) : p₀.ReadsAt d₀ p :=
  (hp.mono fun _ h => h.2.elim id Eq.symm).readsAt

theorem closedBy_sound (env : Env) (hr : d₀.openTrade? tid = some r₀)
    (hcalls : ∀ i, (calls i).Closes tid) :
    Sys.Sound (fun d => d = d₀ ∨ ClosedBySome env calls tid d₀ r₀ d) (Once d₀)
      (progs env calls) where
  readPhase i := (calls i).readPhase env
  refl _ := .inr rfl
  trans h h' := by
    rcases h with h | rfl
    · exact .inl h
    · exact h'
  keep i p d hd hp := by
    rcases hd with rfl | hd
    · rw [(readsAt_of_once hp).run_eq]
      rcases (hcalls i).run env hr with ⟨e, h⟩ | ⟨b, reply, hb, hid, -, h⟩
      · rw [show (progs env calls i).run d = (d, .raised e) from h]
        exact ⟨.inl rfl, .inl rfl⟩
      · rw [show (progs env calls i).run d = (d.closed r₀ b, reply) from h]
        exact ⟨.inr ⟨i, b, hb, hid, rfl⟩, .inl rfl⟩
    · rw [(hcalls i).lost hp (hd.not_open hr)]
      exact ⟨.inr hd, .inr rfl⟩

variable [DecidableEq ι] {s : Sys ι Ledger Reply}

/-- In every interleaving, with crashes: the ledger is untouched, or one of the calls has closed the
trade, and it has as soon as one call has ended without raising. -/
theorem closedBy_invariant (hr : d₀.openTrade? tid = some r₀)
    (hcalls : ∀ i, (calls i).Closes tid)
    (hs : Sys.Crashes (.raised .crashed) (.init d₀ (progs env calls)) s) :
    (s.committed = d₀ ∨ ClosedBySome env calls tid d₀ r₀ s.committed) ∧
    ∀ i reply, s.Done i reply → (∀ e, reply ≠ .raised e) →
      ClosedBySome env calls tid d₀ r₀ s.committed := by
  have hsound := closedBy_sound env hr hcalls
  refine ⟨(hsound.invariant (.inl rfl) hs).1, fun i reply hi hok => ?_⟩
  refine hsound.result (Q := fun _ d reply => (∀ e, reply ≠ .raised e) →
    ClosedBySome env calls tid d₀ r₀ d) ?_ ?_ ?_ (.inl rfl) hs hi hok
  · intro j p d hd hp hne
    rcases hd with rfl | hd
    · rw [(readsAt_of_once hp).run_eq] at hne ⊢
      rcases (hcalls j).run env hr with ⟨e, h⟩ | ⟨b, reply, hb, hid, -, h⟩
      · rw [show (progs env calls j).run d = (d, .raised e) from h] at hne
        exact absurd rfl (hne e)
      · rw [show (progs env calls j).run d = (d.closed r₀ b, reply) from h]
        exact ⟨j, b, hb, hid, rfl⟩
    · rw [(hcalls j).lost hp (hd.not_open hr)]
      exact hd
  · intro j d d' reply hd' hg hq hne
    rcases hg with rfl | rfl
    · exact absurd rfl ((hq hne).ne hr)
    · exact hq hne
  · intro j d hne
    exact absurd rfl (hne _)

/-- The call that has closed the trade has ended without raising. -/
theorem closedBy_author (hr : d₀.openTrade? tid = some r₀) (hcalls : ∀ i, (calls i).Closes tid)
    (hs : Sys.Crashes (.raised .crashed) (.init d₀ (progs env calls)) s) :
    s.committed = d₀ ∨ ∃ i reply, s.Done i reply ∧ ∀ e, reply ≠ .raised e := by
  refine (closedBy_sound env hr hcalls).author (fun i p d hd hp => ?_) (.inl rfl) hs
  rcases hd with rfl | hd
  · rw [(readsAt_of_once hp).run_eq]
    rcases (hcalls i).run env hr with ⟨e, h⟩ | ⟨b, reply, hb, hid, hok, h⟩
    · exact .inl (congrArg Prod.fst h)
    · exact .inr ((congrArg Prod.snd h).symm ▸ hok)
  · exact .inl ((hcalls i).lost hp (hd.not_open hr))

/-- `d` is `d₀` after the close `p` of the trade whose open row was `r₀`, and nothing else. -/
structure ClosedOnce (d₀ d : Ledger) (r₀ : TradeRow) (p : PersistArgs) : Prop where
  ledger : d = d₀.closed r₀ p
  row : ∃ r, d.trade? p.tradeId = some r ∧ r.status = .closed ∧
    r.exitPrice = some p.exitPrice ∧ r.actualExitTime = some p.exitTime ∧
    r.realizedPnlUsdt = some (r₀.realizedPnlUsdt.getD 0 + p.pnlUsdt)
  others : ∀ r : TradeRow, r.id ≠ p.tradeId → (r ∈ d.trades ↔ r ∈ d₀.trades)
  event : ∃ e, d.adjustments = d₀.adjustments ++ [e] ∧ e.tradeId = p.tradeId ∧
    e.eventType = .close ∧ e.realizedPnlDeltaUsdt = some p.pnlUsdt
  once : (d.eventsOf p.tradeId).countP (fun b => b.eventType = .close) = 1

theorem closedOnce_closed {p : PersistArgs} (hr : d₀.openTrade? p.tradeId = some r₀)
    (hnone : ∀ b ∈ d₀.eventsOf p.tradeId, b.eventType ≠ .close) :
    ClosedOnce d₀ (d₀.closed r₀ p) r₀ p := by
  have hrec : d₀.recorded p.exitTime (p.event r₀.closeCols) =
      [(p.event r₀.closeCols).row p.exitTime (d₀.nextSeq p.tradeId)] := recorded_of_new hnone
  have hcum : p.cumulativePnl r₀.closeCols = r₀.realizedPnlUsdt.getD 0 + p.pnlUsdt := by
    rw [PersistArgs.cumulativePnl]
    cases h : r₀.realizedPnlUsdt with
    | none => simp [TradeRow.closeCols, h, pyOr]
    | some v => simp [TradeRow.closeCols, h]
  refine ⟨rfl, ⟨_, trade?_amend hr, rfl, rfl, rfl, congrArg some hcum⟩, fun r hne => ?_, ?_, ?_⟩
  · refine ⟨fun hm => ?_, fun hm => mem_amend_of_ne hm hne⟩
    rcases mem_amend hr hm with rfl | ⟨hm, -⟩
    · exact absurd (openTrade?_eq_some hr).2.1 hne
    · exact hm
  · exact ⟨_, by rw [closed, amend_adjustments, hrec], rfl, rfl, rfl⟩
  · have hid : (p.event r₀.closeCols).tradeId = p.tradeId := rfl
    rw [closed, eventsOf_amend, if_pos hid, hrec, List.countP_append,
      List.countP_eq_zero.mpr fun b hb hc => hnone b hb (of_decide_eq_true hc)]
    rfl

/-- Concurrent closes of an open trade without a `CLOSE` event leave the ledger untouched until one
of them has closed the trade, exactly once; that has happened when any of them has ended without
raising, and the ledger is untouched as long as all that have ended have raised. A call ends with
its commit. -/
theorem closed_exactly_once (hr : d₀.openTrade? tid = some r₀)
    (hnone : ∀ b ∈ d₀.eventsOf tid, b.eventType ≠ .close) (hcalls : ∀ i, (calls i).Closes tid)
    (hs : Sys.Crashes (.raised .crashed) (.init d₀ (progs env calls)) s) :
    (s.committed = d₀ ∨ ∃ j p, (calls j).Books env d₀ p ∧ p.tradeId = tid ∧
      ClosedOnce d₀ s.committed r₀ p) ∧
    (∀ i reply, s.Done i reply → (∀ e, reply ≠ .raised e) →
      ∃ j p, (calls j).Books env d₀ p ∧ p.tradeId = tid ∧ ClosedOnce d₀ s.committed r₀ p) ∧
    ((∀ i reply, s.Done i reply → ∃ e, reply = .raised e) → s.committed = d₀) := by
  have hclosed : ClosedBySome env calls tid d₀ r₀ s.committed →
      ∃ j p, (calls j).Books env d₀ p ∧ p.tradeId = tid ∧ ClosedOnce d₀ s.committed r₀ p := by
    rintro ⟨j, p, hb, rfl, he⟩
    exact ⟨j, p, hb, rfl, he ▸ closedOnce_closed hr hnone⟩
  obtain ⟨hinv, hdone⟩ := closedBy_invariant hr hcalls hs
  refine ⟨hinv.imp_right hclosed, fun i reply hi hok => hclosed (hdone i reply hi hok),
    fun hraised => (closedBy_author hr hcalls hs).resolve_right ?_⟩
  rintro ⟨i, reply, hi, hok⟩
  obtain ⟨e, he⟩ := hraised i reply hi
  exact hok e he

end race

theorem oneOpenTrade_row : ∃ r, oneOpenTrade.openTrade? "SJ-0001" = some r :=
  Option.isSome_iff_exists.mp (by decide +kernel)

theorem oneOpenTrade_not_closed :
    ∀ b ∈ oneOpenTrade.eventsOf "SJ-0001", b.eventType ≠ .close := by
  decide +kernel

/-- A carry close and a perp close of `SJ-0001`, an hour and a day after its entry. -/
def perpAndCarry : Fin 2 → Call
  | 0 => .closeCarry { tradeId := "SJ-0001", exitPrice := 120, now := 3_600_000_000 }
  | 1 => .closePerp { tradeId := "SJ-0001", exitPrice := 130, now := 86_400_000_000 }

/-- The carry close reads the open row, loses the race and returns `False`. -/
theorem closed_exactly_once_perpAndCarry : ∃ s r₀ p,
    Sys.Reach (.init oneOpenTrade (progs quietEnv perpAndCarry)) s ∧
    s.Done 0 (.bool false) ∧ s.Done 1 .none ∧ ClosedOnce oneOpenTrade s.committed r₀ p := by
  have hrun : ((Sys.init oneOpenTrade (progs quietEnv perpAndCarry)).steps
      ([0, 0] ++ List.replicate 8 1 ++ [0, 0])).map (fun s =>
      (s.writer.isNone, (s.proc 0).result?, (s.proc 1).result?)) =
      some (true, some (.bool false), some .none) := by decide +kernel
  obtain ⟨s, hs, he⟩ := Option.map_eq_some_iff.mp hrun
  simp only [Prod.mk.injEq] at he
  obtain ⟨hw, h0, h1⟩ := he
  have hnot := Sys.not_holds_of_none (Option.isNone_iff_eq_none.mp hw)
  have h0 : s.Done 0 (.bool false) := ⟨Prog.eq_ret_of_result? h0, hnot 0⟩
  have hreach := Sys.Reach.of_steps .refl hs
  obtain ⟨r₀, hr₀⟩ := oneOpenTrade_row
  have hcalls : ∀ i, (perpAndCarry i).Closes "SJ-0001" := fun i => match i with
    | 0 => rfl
    | 1 => rfl
  obtain ⟨-, p, -, -, hp⟩ := (closed_exactly_once hr₀ oneOpenTrade_not_closed hcalls
    (hreach.crashes _)).2.1 0 _ h0 (fun e h => nomatch h)
  exact ⟨s, r₀, p, hreach, h0, ⟨Prog.eq_ret_of_result? h1, hnot 1⟩, hp⟩

/-- A close dated before the entry of its trade. -/
def backdatedClose (_ : Fin 1) : Call :=
  .closePerp { tradeId := "SJ-0001", exitPrice := 120, exitDt := some (-1), now := 3_600_000_000 }

/-- `validate_event_time` refuses it, and no `CLOSE` is recorded. -/
theorem backdatedClose_refused : (∃ r, oneOpenTrade.openTrade? "SJ-0001" = some r) ∧
    (∀ i, (backdatedClose i).Closes "SJ-0001") ∧
    ∃ s, Sys.Reach (.init oneOpenTrade (progs quietEnv backdatedClose)) s ∧
      (∀ i, ∃ r, s.Done i r) ∧
      (s.committed.eventsOf "SJ-0001").countP (fun b => b.eventType = .close) = 0 := by
  have hrun : ((Sys.init oneOpenTrade (progs quietEnv backdatedClose)).steps
      (List.replicate 4 0)).map (fun s => (s.writer.isNone, (s.proc 0).result?.isSome,
        (s.committed.eventsOf "SJ-0001").countP fun b => b.eventType = .close)) =
      some (true, true, 0) := by decide +kernel
  obtain ⟨s, hs, he⟩ := Option.map_eq_some_iff.mp hrun
  simp only [Prod.mk.injEq] at he
  obtain ⟨hw, h0, hcount⟩ := he
  obtain ⟨r, h0⟩ := Option.isSome_iff_exists.mp h0
  have hnot := Sys.not_holds_of_none (Option.isNone_iff_eq_none.mp hw)
  refine ⟨oneOpenTrade_row, fun _ => rfl, s, .of_steps .refl hs, fun i => ?_, hcount⟩
  match i with
  | 0 => exact ⟨r, Prog.eq_ret_of_result? h0, hnot 0⟩

end P300
