import P300.Equity.Position
import P300.Ledger.History
import Mathlib.Data.Set.Finite.Lattice
import Mathlib.Order.Bounds.Basic
import Mathlib.Tactic.FieldSimp
import Mathlib.Tactic.Ring

/-!
# The rows agree with the replay of their events

Six helpers move the columns `current_qty`, `realized_pnl_usdt` and `avg_entry_price` of a row, each
by its own formula, and `_Position.advance` rebuilds the same three numbers from the events alone.
`Holding.Tracks` is the relation between the two sides. Every change of every helper keeps it, but
for one: a flip of an open trade with nothing left of it opens a child of size zero, whose `OPEN`
event the replay refuses.
-/

namespace P300

open Ledger

/-- The replayed numbers are those of the row. -/
structure Holding.Tracks (h : Holding) (r : TradeRow) : Prop where
  qty : r.currentQty = some h.qty
  nonneg : 0 ≤ h.qty
  realized : r.realizedPnlUsdt = some h.realized
  basis : r.avgEntryPrice = some h.basis

/-- `e` numbered `seq`, as the replay reads it. -/
abbrev RecordArgs.toEvent (e : RecordArgs) (now : Time) (seq : Nat) : EquityEvent :=
  (e.row now seq).toEvent

section steps

variable {h : Holding} {r : TradeRow} {seq : Nat}

theorem ScaleArgs.tracks (a : ScaleArgs) (ht : h.Tracks r) (hq : 0 ≤ a.newQty) (hp : 0 < a.price)
    (hn : ¬ negligible (a.qtyDelta r.scaleCols)) :
    ∃ h', h.apply r.id ((a.event r.scaleCols).toEvent a.now seq) = .ok h' ∧
      h'.Tracks (r.set (a.update r.scaleCols)) := by
  have hprev : ScaleArgs.prevQty r.scaleCols = h.qty := by
    simp [ScaleArgs.prevQty, TradeRow.scaleCols, ht.qty]
  have havg : ScaleArgs.prevAvg r.scaleCols = h.basis := by
    simp [ScaleArgs.prevAvg, TradeRow.scaleCols, ht.basis]
  have hdelta : a.qtyDelta r.scaleCols = a.newQty - h.qty := by rw [ScaleArgs.qtyDelta, hprev]
  have hne : a.newQty ≠ h.qty := by
    intro e
    rw [hdelta, e, sub_self] at hn
    exact hn (by simp [negligible])
  have hsize : a.newQty ≠ 0 → ∃ size, some a.newSize = some size ∧ 0 < size := fun h0 =>
    ⟨_, rfl, mul_pos (hq.lt_of_ne' h0) hp⟩
  rcases lt_or_gt_of_ne hne with hlt | hgt
  · have hd : a.qtyDelta r.scaleCols < 0 := by rw [hdelta]; exact sub_neg.mpr hlt
    have hk : (a.event r.scaleCols).eventType = .scaleDown := if_neg hd.not_gt
    obtain ⟨h', he, h1, h2, h3⟩ := h.apply_decrease r.id
      ((a.event r.scaleCols).toEvent a.now seq) (.inl hk) rfl hq hlt.le rfl hsize
    refine ⟨h', he, ?_, h1 ▸ hq, ?_, ?_⟩
    · rw [h1]
      rfl
    · rw [h3]
      simp [TradeRow.set, ScaleArgs.update, ht.realized, hd, ScaleArgs.event]
    · rw [h2]
      simp [TradeRow.set, ScaleArgs.update, ScaleArgs.newAvg, havg, hd, hd.not_gt]
  · have hd : 0 < a.qtyDelta r.scaleCols := by rw [hdelta]; exact sub_pos.mpr hgt
    have hk : (a.event r.scaleCols).eventType = .scaleUp := if_pos hd
    have h0 : 0 < a.newQty := ht.nonneg.trans_lt hgt
    obtain ⟨h', he, h1, h2, h3⟩ := h.apply_increase r.id
      ((a.event r.scaleCols).toEvent a.now seq) (.inr hk) rfl ht.nonneg hgt rfl hp
      (hsize h0.ne')
    refine ⟨h', he, ?_, h1 ▸ hq, ?_, ?_⟩
    · rw [h1]
      rfl
    · rw [h3]
      simp [TradeRow.set, ScaleArgs.update, ht.realized, hd.not_gt]
    · rw [h2]
      simp [TradeRow.set, ScaleArgs.update, ScaleArgs.newAvg, hprev, havg, hdelta, hgt, hgt.not_gt,
        h0]

theorem LeverageArgs.tracks (a : LeverageArgs) (ht : h.Tracks r) (hp : 0 < a.price) :
    ∃ h', h.apply r.id ((a.event r.leverageCols).toEvent a.now seq) = .ok h' ∧
      h'.Tracks (r.set (a.update r.leverageCols)) := by
  have hcur : LeverageArgs.curQty r.leverageCols = h.qty := by
    simp [LeverageArgs.curQty, TradeRow.leverageCols, ht.qty]
  obtain ⟨h', he, h1, h2, h3⟩ := h.apply_leverage r.id
    ((a.event r.leverageCols).toEvent a.now seq) rfl (congrArg some hcur) ht.nonneg
    fun h0 => ⟨_, rfl, by
      rw [LeverageArgs.notional, hcur]
      exact mul_pos (ht.nonneg.lt_of_ne' h0) hp⟩
  exact ⟨h', he, h1 ▸ ht.qty, h1 ▸ ht.nonneg, h3 ▸ ht.realized, h2 ▸ ht.basis⟩

theorem PersistArgs.tracks (a : PersistArgs) (ht : h.Tracks r) :
    ∃ h', h.apply r.id ((a.event r.closeCols).toEvent a.exitTime seq) = .ok h' ∧
      h'.Tracks (r.set (a.update r.closeCols)) := by
  obtain ⟨h', he, h1, h2, h3⟩ := h.apply_decrease r.id
    ((a.event r.closeCols).toEvent a.exitTime seq) (.inr ⟨.inl rfl, rfl⟩) rfl le_rfl
    ht.nonneg rfl fun h0 => absurd rfl h0
  refine ⟨h', he, ?_, h1.ge, ?_, ?_⟩
  · rw [h1]
    rfl
  · rw [h3]
    simp [TradeRow.set, PersistArgs.update, PersistArgs.cumulativePnl, TradeRow.closeCols,
      ht.realized, PersistArgs.event]
  · rw [h2]
    exact ht.basis

theorem FlipArgs.tracks (a : FlipArgs) (ht : h.Tracks r) :
    ∃ h', h.apply r.id ((a.closeEvent r.flipCols).toEvent a.flipTime seq) = .ok h' ∧
      h'.Tracks (r.set (a.update r.flipCols)) := by
  obtain ⟨h', he, h1, h2, h3⟩ := h.apply_decrease r.id
    ((a.closeEvent r.flipCols).toEvent a.flipTime seq) (.inr ⟨.inr rfl, rfl⟩) rfl le_rfl
    ht.nonneg rfl fun h0 => absurd rfl h0
  refine ⟨h', he, ?_, h1.ge, ?_, ?_⟩
  · rw [h1]
    rfl
  · rw [h3]
    simp [TradeRow.set, FlipArgs.update, FlipArgs.cumulativePnl, TradeRow.flipCols, ht.realized,
      FlipArgs.closeEvent]
  · rw [h2]
    exact ht.basis

/-- A new position of positive size and price. -/
theorem tracks_open {e : RecordArgs} {now : Time} {qty price size : ℚ} (hk : e.eventType = .open_)
    (hqty : e.qtyAfter = some qty) (hprice : e.price = some price)
    (hsize : e.sizeUsdtAfter = some size) (hq : 0 < qty) (hp : 0 < price) (hs : 0 < size)
    (hr : r.currentQty = some qty) (hr' : r.avgEntryPrice = some price)
    (hr'' : r.realizedPnlUsdt = some 0) :
    ∃ h', ({} : Holding).apply r.id (e.toEvent now seq) = .ok h' ∧ h'.Tracks r := by
  obtain ⟨h', he, h1, h2, h3⟩ := ({} : Holding).apply_increase r.id
    (e.toEvent now seq) (.inl hk) hqty le_rfl hq hprice hp ⟨size, hsize, hs⟩
  refine ⟨h', he, by rw [h1, hr], h1 ▸ hq.le, by rw [h3, hr''], ?_⟩
  rw [h2, hr']
  congr 1
  field_simp
  ring

end steps

/-! ## Runs -/

namespace Ledger

variable {d d' : Ledger} {tid : String} {u : TradeUpdate} {now : Time} {e : RecordArgs}
  {row r : TradeRow} {env : Env}

/-- The events of `r` replay to its row. -/
def Replays (d : Ledger) (r : TradeRow) : Prop :=
  ∃ h, Holding.applyAll r.id ((d.eventsOf r.id).map (·.toEvent)) {} = .ok h ∧ h.Tracks r

theorem replays_amend (hd : ∀ r ∈ d.trades, d.Replays r) (hr : d.openTrade? tid = some r)
    (he : e.tradeId = tid) (hrec : d.recorded now e ≠ [])
    (hstep : ∀ h : Holding, h.Tracks r →
      ∃ h', h.apply r.id (e.toEvent now (d.nextSeq r.id)) = .ok h' ∧ h'.Tracks (r.set u)) :
    ∀ r' ∈ (d.amend tid u now e).trades, (d.amend tid u now e).Replays r' := by
  intro r' hr'
  obtain ⟨hmem, hid, -⟩ := openTrade?_eq_some hr
  rcases mem_amend hr hr' with rfl | ⟨hmem', hne⟩
  · obtain ⟨h, hall, ht⟩ := hd r hmem
    obtain ⟨h', hap, ht'⟩ := hstep h ht
    refine ⟨h', ?_, ht'⟩
    rw [show (r.set u).id = r.id from rfl, eventsOf_amend_self hr he hrec, List.map_append,
      List.map_singleton, Holding.applyAll_append hall]
    exact hap
  · obtain ⟨h, hall, ht⟩ := hd r' hmem'
    refine ⟨h, ?_, ht⟩
    rw [eventsOf_amend, if_neg fun h' => hne (h'.symm.trans he), List.append_nil]
    exact hall

theorem replays_spawn (hd : ∀ r ∈ d.trades, d.Replays r) (hu : d.Unused row)
    (he : e.tradeId = row.id)
    (hopen : ∃ h', ({} : Holding).apply row.id (e.toEvent now 0) = .ok h' ∧ h'.Tracks row) :
    ∀ r' ∈ (d.spawn row now e).trades, (d.spawn row now e).Replays r' := by
  intro r' hr'
  rw [hu.spawn_trades, List.mem_append, List.mem_singleton] at hr'
  rw [Replays, hu.eventsOf_spawn he]
  rcases hr' with hr' | rfl
  · have hne : row.id ≠ r'.id := fun hc => hu.id (by rw [hc]; exact List.mem_map_of_mem hr')
    rw [if_neg hne]
    exact hd r' hr'
  · obtain ⟨h', hap, ht⟩ := hopen
    refine ⟨h', ?_, ht⟩
    rw [if_pos rfl, List.map_singleton, Holding.applyAll, hap]
    rfl

end Ledger

/-- Positive prices, sizes and leverages, and no negative target quantity. -/
def Call.Admissible : Call → Prop
  | .openTrade a => 0 < a.entryPrice ∧ 0 < a.sizeUsdt ∧ 0 < a.leverage
  | .scale a => 0 ≤ a.newQty ∧ 0 < a.price
  | .leverage a => 0 < a.newLeverage ∧ 0 < a.price
  | .flip a => 0 < a.price
  | .closePerp a => 0 < a.exitPrice
  | .closeCarry a => 0 < a.exitPrice
  | .persistClose a => 0 < a.exitPrice

/-- `c` flips an open trade with nothing left of it. -/
def Call.EmptyFlip (d : Ledger) : Call → Prop
  | .flip a => (∀ text, a.newDirection ≠ .other text) ∧
    ∃ r, d.openTrade? a.tradeId = some r ∧ r.direction ≠ a.newDirection ∧ r.currentQty = some 0
  | _ => False

/-- No call of the run is an empty flip where it is made. -/
def NoEmptyFlip (env : Env) (calls : List Call) (d : Ledger) : Prop :=
  ∀ pre c post, calls = pre ++ c :: post → ¬ c.EmptyFlip (runAll env pre d)

theorem NoEmptyFlip.tail {env : Env} {c : Call} {calls : List Call} {d : Ledger}
    (h : NoEmptyFlip env (c :: calls) d) : NoEmptyFlip env calls (c.run env d).1 := by
  intro pre c' post e
  have := h (c :: pre) c' post (by rw [e, List.cons_append])
  rwa [runAll_cons] at this

namespace Ledger

variable {d d' : Ledger} {env : Env} {c : Call}

/-- The step lemma: every change but an empty flip keeps the rows and the replays together. -/
theorem Consistent.replays_effect (h : d.Consistent) (hd : ∀ r ∈ d.trades, d.Replays r)
    (ha : c.Admissible) (hf : ¬ c.EmptyFlip d) (hc : c.Effect env d d') :
    ∀ r ∈ d'.trades, d'.Replays r := by
  cases hc with
  | @opened a hk =>
    obtain ⟨hp, hs, -⟩ := ha
    have hq : 0 < a.qty := by
      rw [OpenArgs.qty, if_pos hp]
      exact div_pos hs hp
    have hu : d.Unused (a.row d.nextSjId) := h.minted.unused rfl (by rintro k ⟨⟩; exact hk)
    exact replays_spawn hd hu rfl (tracks_open (e := a.event d.nextSjId)
      (r := a.row d.nextSjId) rfl rfl rfl rfl hq hp hs rfl rfl rfl)
  | scaled hr hn hrec =>
    exact replays_amend hd hr rfl hrec fun _ ht => ScaleArgs.tracks _ ht ha.1 ha.2 hn
  | leveraged hr hrec =>
    exact replays_amend hd hr rfl hrec fun _ ht => LeverageArgs.tracks _ ht ha.2
  | closed _ hr =>
    exact replays_amend hd hr rfl (h.recorded_terminal _ hr rfl (.inl rfl)) fun _ ht =>
      PersistArgs.tracks _ ht
  | @flipped a r mid hr hdir hne hmid =>
    have ha : 0 < a.price := ha
    have hm : ∀ r ∈ mid.trades, mid.Replays r :=
      hmid ▸ replays_amend hd hr rfl (h.recorded_terminal _ hr rfl (.inr rfl)) fun _ ht =>
        FlipArgs.tracks _ ht
    have hmm : mid.Minted := hmid ▸ h.minted.amend (has_of_openTrade? hr)
    obtain ⟨h₀, -, ht⟩ := hd r (openTrade?_eq_some hr).1
    have hcur : FlipArgs.curQty r.flipCols = h₀.qty := by
      simp [FlipArgs.curQty, TradeRow.flipCols, ht.qty]
    have hpos : 0 < FlipArgs.curQty r.flipCols := by
      rw [hcur]
      refine ht.nonneg.lt_of_ne' fun h0 => hf ⟨hdir, r, hr, hne, ?_⟩
      rw [ht.qty, h0]
    have hsize : 0 < a.newSize r.flipCols := mul_pos hpos ha
    have hqty : 0 < a.newQty r.flipCols := by
      rw [FlipArgs.newQty, if_pos ha]
      exact div_pos hsize ha
    have hu : mid.Unused (a.childRow r.flipCols mid.nextSjId) :=
      hmm.unused rfl (by rintro k ⟨⟩)
    exact replays_spawn hm hu rfl (tracks_open (e := a.openEvent r.flipCols mid.nextSjId)
      (r := a.childRow r.flipCols mid.nextSjId) rfl rfl rfl rfl hqty ha hsize rfl rfl rfl)

/-- The run lemma. -/
theorem Consistent.replays_runAll {calls : List Call} (h : d.Consistent)
    (hd : ∀ r ∈ d.trades, d.Replays r) (ha : ∀ c ∈ calls, c.Admissible)
    (hf : NoEmptyFlip env calls d) : ∀ r ∈ (runAll env calls d).trades,
      (runAll env calls d).Replays r := by
  induction calls generalizing d with
  | nil => exact hd
  | cons c calls ih =>
    have hd' : ∀ r ∈ (c.run env d).1.trades, (c.run env d).1.Replays r := by
      rcases c.run_cases env h.minted with hc | hc
      · rw [hc]
        exact hd
      · exact h.replays_effect hd (ha c List.mem_cons_self) (hf [] c calls rfl) hc
    rw [runAll_cons]
    exact ih (h.run c) hd' (fun c' hc' => ha c' (List.mem_cons_of_mem _ hc')) hf.tail

/-! ## Agreement -/

variable {r : TradeRow} {tid : String}

/-- Replaying the events of `r` in the order of their numbers past the last of them raises nothing
and ends with the columns of the row, and a closed trade has booked what its events add up to. -/
structure ReplayAgrees (d : Ledger) (r : TradeRow) : Prop where
  advance : ∀ cutoff, (∀ b ∈ d.getAdjustments r.id, b.eventTime < cutoff) →
    ∃ p, Position.advance { trade := r, events := (d.getAdjustments r.id).map (·.toEvent) } cutoff =
        .ok p ∧ p.index = p.events.length ∧ r.currentQty = some p.qty ∧
      r.realizedPnlUsdt = some p.realized ∧ (0 < p.qty → r.avgEntryPrice = some p.basis)
  pnl : r.status = .closed → r.pnlUsdt = some (deltas (d.getAdjustments r.id))

theorem Told.advance_eq (h : d.Told r) {cutoff : Time}
    (hcut : ∀ b ∈ d.getAdjustments r.id, b.eventTime < cutoff) :
    Position.advance { trade := r, events := (d.getAdjustments r.id).map (·.toEvent) } cutoff =
      (Holding.applyAll r.id ((d.eventsOf r.id).map (·.toEvent)) {}).map fun h' =>
        { trade := r, events := (d.eventsOf r.id).map (·.toEvent), toHolding := h',
          index := (d.eventsOf r.id).length } := by
  rw [h.getAdjustments_eq] at hcut ⊢
  rw [Position.advance, List.drop_zero, Position.advanceOver_all]
  · rw [List.length_map, Nat.zero_add]
  · intro ev hev
    obtain ⟨b, hb, rfl⟩ := List.mem_map.mp hev
    exact hcut b hb

theorem Replays.agrees (hr : d.Replays r) (h : d.Told r) : d.ReplayAgrees r where
  advance cutoff hcut := by
    obtain ⟨h', hall, ht⟩ := hr
    rw [h.advance_eq hcut, hall]
    exact ⟨_, rfl, (List.length_map _).symm, ht.qty, ht.realized, fun _ => ht.basis⟩
  pnl hst := by
    have hno : r.status ≠ .open_ := fun ho => by rw [hst] at ho; cases ho
    rw [(h.ended hno).1, h.realized, h.getAdjustments_eq]

/-- The trade `tid` opened with nothing. -/
structure Stillborn (d : Ledger) (tid : String) : Prop where
  has : d.Has tid
  opened : ∃ b es, d.eventsOf tid = b :: es ∧ b.eventType = .open_ ∧ b.qtyAfter = some 0

theorem Stillborn.grows (h : d.Stillborn tid) (hg : d.Grows d') : d'.Stillborn tid where
  has := hg.has h.has
  opened := by
    obtain ⟨b, es, he, hb⟩ := h.opened
    have hp : d.eventsOf tid <+: d'.eventsOf tid := hg.adjustments.filter _
    rw [he] at hp
    obtain ⟨es', h'⟩ := hp
    exact ⟨b, es ++ es', h'.symm, hb⟩

/-- The child of an empty flip. -/
theorem Consistent.stillborn (h : d.Consistent) (env : Env) (hc : c.EmptyFlip d) :
    ∃ tid, (c.run env d).1.Stillborn tid := by
  cases c with
  | flip a =>
    obtain ⟨hdir, r, hr, hne, hq⟩ := hc
    obtain ⟨mid, hm⟩ : ∃ mid, mid = d.amend a.tradeId (a.update r.flipCols) a.flipTime
      (a.closeEvent r.flipCols) := ⟨_, rfl⟩
    have hmm : mid.Minted := hm ▸ h.minted.amend (has_of_openTrade? hr)
    have hu : mid.Unused (a.childRow r.flipCols mid.nextSjId) := hmm.unused rfl (by rintro k ⟨⟩)
    have hcur : FlipArgs.curQty r.flipCols = 0 := by
      simp [FlipArgs.curQty, TradeRow.flipCols, hq]
    have hnew : a.newQty r.flipCols = 0 := by
      rw [FlipArgs.newQty, FlipArgs.newSize, hcur, zero_mul, zero_div, ite_self]
    refine ⟨mid.nextSjId, ?_, ?_⟩
    · rw [Call.run, Call.prog, applyFlip_run h.minted hr hdir hne hm]
      exact has_of_mem (r := a.childRow r.flipCols mid.nextSjId) (by rw [hu.spawn_trades]; simp)
    · rw [Call.run, Call.prog, applyFlip_run h.minted hr hdir hne hm, hu.eventsOf_spawn rfl]
      exact ⟨_, [], if_pos rfl, rfl, congrArg some hnew⟩
  | openTrade | scale | leverage | closePerp | closeCarry | persistClose => exact hc.elim

/-- The replay refuses a trade that opened with nothing. -/
theorem Stillborn.not_agrees (h : d.Stillborn r.id) (ht : d.Told r) : ¬ d.ReplayAgrees r := by
  intro ha
  obtain ⟨b, es, he, hb, hq⟩ := h.opened
  obtain ⟨cutoff, hcut⟩ : ∃ cutoff, ∀ t ∈ (d.getAdjustments r.id).map (·.eventTime),
      t < cutoff := by
    obtain ⟨last, hlast⟩ :=
      (List.finite_toSet ((d.getAdjustments r.id).map (·.eventTime))).bddAbove
    exact ⟨last + 1, fun t ht => Int.lt_add_one_of_le (hlast ht)⟩
  obtain ⟨p, hp, -⟩ := ha.advance cutoff fun b hb => hcut _ (List.mem_map_of_mem hb)
  rw [ht.advance_eq fun b hb => hcut _ (List.mem_map_of_mem hb), he, List.map_cons,
    Holding.applyAll] at hp
  obtain ⟨err, herr⟩ := Holding.apply_open_zero {} r.id b.toEvent hb hq le_rfl
  rw [herr] at hp
  cases hp

end Ledger

/-- A run of the helpers on an empty ledger keeps every row in agreement with the replay of its
events exactly when no flip in it finds its trade open with nothing left of it. -/
theorem replay_agrees_iff (env : Env) (calls : List Call) (ha : ∀ c ∈ calls, c.Admissible) :
    (∀ r ∈ (runAll env calls empty).trades, (runAll env calls empty).ReplayAgrees r) ↔
      NoEmptyFlip env calls empty := by
  have hd : (runAll env calls empty).Consistent := consistent_runAll .empty calls
  constructor
  · intro h pre c post e hc
    have hpre : (runAll env pre empty).Consistent := consistent_runAll .empty pre
    obtain ⟨tid, hs⟩ := hpre.stillborn env hc
    have hg : (c.run env (runAll env pre empty)).1.Grows (runAll env calls empty) := by
      rw [e, runAll_append, runAll_cons]
      exact grows_runAll (hpre.run c) post
    have hs' := hs.grows hg
    obtain ⟨x, hx, rfl⟩ := hs'.has
    obtain ⟨r, hr, rfl⟩ := List.mem_map.mp hx
    exact hs'.not_agrees (hd.told r hr) (h r hr)
  · intro hf r hr
    have := Consistent.empty.replays_runAll (fun _ h => nomatch h) ha hf r hr
    exact this.agrees (hd.told r hr)

/-- A long of 10 at 100, scaled to `newQty` and then flipped. -/
def flipRun (newQty : ℚ) : List Call := [
  .openTrade {
    variantId := "jplus", sleeveName := "ema_btc", asset := "BTC", direction := .long
    entryPrice := 100, allocationPct := 10, now := 0 },
  .scale { tradeId := "SJ-0001", newQty := newQty, price := 110, now := 3_600_000_000 },
  .flip { tradeId := "SJ-0001", newDirection := .short, price := 120, now := 7_200_000_000 }]

theorem flipRun_admissible {newQty : ℚ} (h : 0 ≤ newQty) : ∀ c ∈ flipRun newQty, c.Admissible := by
  intro c hc
  simp only [flipRun, List.mem_cons, List.not_mem_nil, or_false] at hc
  obtain rfl | rfl | rfl := hc
  · exact (by decide +kernel : (0 : ℚ) < 100 ∧ (0 : ℚ) < 10_000 * (10 / 100) * 1 ∧ (0 : ℚ) < 1)
  · exact ⟨h, (by decide +kernel : (0 : ℚ) < 110)⟩
  · exact (by decide +kernel : (0 : ℚ) < 120)

theorem noEmptyFlip_flipRun : NoEmptyFlip quietEnv (flipRun 4) empty := by
  intro pre c post e hc
  rcases pre with _ | ⟨_, _ | ⟨_, _ | ⟨_, pre⟩⟩⟩
  · cases e
    exact hc
  · cases e
    exact hc
  · cases e
    obtain ⟨-, r, hr, -, hq⟩ := hc
    have h4 : ((runAll quietEnv ((flipRun 4).take 2) empty).openTrade? "SJ-0001").map
        (·.currentQty) = some (some 4) := by decide +kernel
    rw [show (runAll quietEnv ((flipRun 4).take 2) empty).openTrade? "SJ-0001" = some r from hr,
      Option.map_some, hq] at h4
    exact absurd h4 (by decide +kernel)
  · simp [flipRun] at e

/-- The flipped trade and its child. -/
theorem replay_agrees_flipRun : ∃ r r',
    (runAll quietEnv (flipRun 4) empty).trade? "SJ-0001" = some r ∧
    (runAll quietEnv (flipRun 4) empty).trade? "SJ-0002" = some r' ∧
    (runAll quietEnv (flipRun 4) empty).ReplayAgrees r ∧
    (runAll quietEnv (flipRun 4) empty).ReplayAgrees r' := by
  have hall := (replay_agrees_iff quietEnv (flipRun 4) (flipRun_admissible (by decide +kernel))).mpr
    noEmptyFlip_flipRun
  obtain ⟨r, hr⟩ := Option.isSome_iff_exists.mp
    (by decide +kernel : ((runAll quietEnv (flipRun 4) empty).trade? "SJ-0001").isSome)
  obtain ⟨r', hr'⟩ := Option.isSome_iff_exists.mp
    (by decide +kernel : ((runAll quietEnv (flipRun 4) empty).trade? "SJ-0002").isSome)
  exact ⟨r, r', hr, hr', hall r (trade?_eq_some hr).1, hall r' (trade?_eq_some hr').1⟩

/-- The event time of a call. -/
def Call.eventTime : Call → Time
  | .openTrade a => a.entryTime
  | .scale a => a.eventTime.getD a.now
  | .leverage a => a.eventTime.getD a.now
  | .flip a => a.flipTime
  | .closePerp a => a.exitDt.getD a.now
  | .closeCarry a => a.now
  | .persistClose a => a.exitTime

/-- Scaled down to nothing, the flipped trade has a child `SJ-0002` that the replay refuses. -/
theorem flipRun_zero_breaks_replay : (∀ c ∈ flipRun 0, c.Admissible) ∧
    ((flipRun 0).map (·.eventTime)).Pairwise (· ≤ ·) ∧
    ∃ r ∈ (runAll quietEnv (flipRun 0) empty).trades,
      r.id = "SJ-0002" ∧ ¬ (runAll quietEnv (flipRun 0) empty).ReplayAgrees r := by
  refine ⟨flipRun_admissible le_rfl, by decide +kernel, ?_⟩
  have hd : (runAll quietEnv (flipRun 0) empty).Consistent := consistent_runAll .empty _
  have hs : (runAll quietEnv (flipRun 0) empty).Stillborn "SJ-0002" := by
    refine ⟨has_iff.mpr (by decide +kernel), ?_⟩
    have he : ((runAll quietEnv (flipRun 0) empty).eventsOf "SJ-0002").map
        (fun b => (b.eventType, b.qtyAfter)) = [(.open_, some 0)] := by decide +kernel
    obtain ⟨b, es, e, hb, -⟩ := List.map_eq_cons_iff.mp he
    exact ⟨b, es, e, (Prod.mk.inj hb).1, (Prod.mk.inj hb).2⟩
  obtain ⟨x, hx, hid⟩ := hs.has
  obtain ⟨r, hr, rfl⟩ := List.mem_map.mp hx
  exact ⟨r, hr, hid, Stillborn.not_agrees (hid ▸ hs) (hd.told r hr)⟩

end P300
