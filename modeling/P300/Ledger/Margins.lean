import P300.Ledger.History
import P300.Lib.Runs
import Mathlib.Tactic.Linarith

/-!
# The margin column

Every event carries the change of the trade's size and the size after it. The changes add up to the
size as long as each writer takes its change from the current size: `apply_scale` and `apply_flip`
do, but `persist_close` takes it from the size at entry.
-/

namespace P300

open TxnStore

namespace Ledger

/-- The margin changes that events book together. -/
def margins (es : List Adjustment) : ℚ := (es.map fun b => b.marginDeltaUsdt).sum

/-- After each event the changes so far add up to the size after it. -/
def Telescopes (es : List Adjustment) : Prop :=
  ∀ n (b : Adjustment), es[n]? = some b → b.sizeUsdtAfter = some (margins (es.take (n + 1)))

/-- The leverage of the trade has not been adjusted. -/
def Unleveraged (d : Ledger) (tid : String) : Prop :=
  ∀ b ∈ d.eventsOf tid, b.eventType ≠ .leverageAdjust

/-- The margin ledger of every trade telescopes, to 0 once the trade is closed. -/
def MarginLedger (d : Ledger) : Prop :=
  ∀ r ∈ d.trades, d.Unleveraged r.id → Telescopes (d.eventsOf r.id) ∧
    (r.status ≠ .open_ → margins (d.eventsOf r.id) = 0)

section margins

variable {es : List Adjustment} {b : Adjustment}

theorem margins_append_singleton : margins (es ++ [b]) = margins es + b.marginDeltaUsdt := by
  rw [margins, List.map_append, List.sum_append, List.map_singleton, List.sum_singleton, margins]

/-- One event more. -/
theorem telescopes_append_singleton : Telescopes (es ++ [b]) ↔
    Telescopes es ∧ b.sizeUsdtAfter = some (margins es + b.marginDeltaUsdt) := by
  constructor
  · intro h
    constructor
    · intro n c hc
      have hn : n < es.length := (List.getElem?_eq_some_iff.mp hc).1
      have hsum := h n c (by rw [List.getElem?_append_left hn, hc])
      rwa [List.take_append_of_le_length hn] at hsum
    · have hsum := h es.length b (by rw [List.getElem?_append_right le_rfl, Nat.sub_self]; rfl)
      rwa [List.take_of_length_le (by simp), margins_append_singleton] at hsum
  · rintro ⟨h, hb⟩ n c hc
    rcases lt_or_ge n es.length with hn | hn
    · rw [List.getElem?_append_left hn] at hc
      rw [List.take_append_of_le_length hn]
      exact h n c hc
    · rw [List.getElem?_append_right hn, List.getElem?_singleton] at hc
      split at hc
      · next hzero =>
        cases hc
        rw [List.take_of_length_le (by rw [List.length_append, List.length_singleton]; omega),
          margins_append_singleton]
        exact hb
      · cases hc

end margins

/-! ## One event -/

/-- The event `e` of a trade whose changes add up to `m` tells the size that the update `u`
leaves. -/
structure Weighs (e : RecordArgs) (u : TradeUpdate) (r : TradeRow) (m : ℚ) : Prop where
  after : e.sizeUsdtAfter = some (m + e.marginDeltaUsdt)
  live : (u r.toTradeState).status = .open_ → (u r.toTradeState).currentSizeUsdt = e.sizeUsdtAfter
  ended : (u r.toTradeState).status ≠ .open_ → e.sizeUsdtAfter = some 0

/-- The events of the open or closed trade `r` add up. -/
structure Margined (es : List Adjustment) (r : TradeRow) : Prop where
  telescopes : Telescopes es
  current : r.status = .open_ → r.currentSizeUsdt = some (margins es)
  closed : r.status ≠ .open_ → margins es = 0

/-- All trades without a leverage adjustment add up. -/
def AllMargined (d : Ledger) : Prop :=
  ∀ r ∈ d.trades, d.Unleveraged r.id → Margined (d.eventsOf r.id) r

variable {d : Ledger} {tid : String} {r row : TradeRow} {u : TradeUpdate} {now : Time}
  {e : RecordArgs}

theorem AllMargined.marginLedger (h : d.AllMargined) : d.MarginLedger := fun r hr hlev =>
  ⟨(h r hr hlev).telescopes, (h r hr hlev).closed⟩

theorem Margined.set {es : List Adjustment} {seq : ℕ} (h : Margined es r)
    (hw : Weighs e u r (margins es)) :
    Margined (es ++ [e.row now seq]) (r.set u) where
  telescopes := telescopes_append_singleton.mpr ⟨h.telescopes, hw.after⟩
  current ho := by
    rw [margins_append_singleton]
    exact (hw.live ho).trans hw.after
  closed hc := by
    rw [margins_append_singleton]
    exact Option.some.inj (hw.after.symm.trans (hw.ended hc))

theorem AllMargined.amend (h : d.AllMargined) (hr : d.openTrade? tid = some r)
    (he : e.tradeId = tid) (hrec : d.recorded now e ≠ [])
    (hw : e.eventType ≠ .leverageAdjust → d.Unleveraged r.id →
      r.currentSizeUsdt = some (margins (d.eventsOf r.id)) →
        Weighs e u r (margins (d.eventsOf r.id))) :
    (d.amend tid u now e).AllMargined := by
  intro r' hr' hlev
  obtain ⟨hmem, _, ho⟩ := openTrade?_eq_some hr
  rcases mem_amend hr hr' with rfl | ⟨hmem', hne⟩
  · have hid : (r.set u).id = r.id := rfl
    have hev : (d.amend tid u now e).eventsOf r.id =
        d.eventsOf r.id ++ [e.row now (d.nextSeq r.id)] := eventsOf_amend_self hr he hrec
    rw [Unleveraged, hid, hev] at hlev
    have hold : d.Unleveraged r.id := fun b hb => hlev b (List.mem_append_left _ hb)
    have hnew : e.eventType ≠ .leverageAdjust :=
      hlev _ (List.mem_append_right _ (List.mem_singleton_self _))
    rw [hid, hev]
    exact (h r hmem hold).set (hw hnew hold ((h r hmem hold).current ho))
  · have hev : (d.amend tid u now e).eventsOf r'.id = d.eventsOf r'.id := by
      rw [eventsOf_amend, if_neg (fun h' => hne (h'.symm.trans he)), List.append_nil]
    rw [Unleveraged, hev] at hlev
    rw [hev]
    exact h r' hmem' hlev

theorem AllMargined.spawn (h : d.AllMargined) (hu : d.Unused row) (he : e.tradeId = row.id)
    (hst : row.status = .open_) (hsize : row.currentSizeUsdt = some e.marginDeltaUsdt)
    (hafter : e.sizeUsdtAfter = some e.marginDeltaUsdt) : (d.spawn row now e).AllMargined := by
  intro r' hr' hlev
  rw [hu.spawn_trades, List.mem_append, List.mem_singleton] at hr'
  rcases hr' with hr' | rfl
  · have hne : row.id ≠ r'.id := fun hc => hu.id (hc ▸ List.mem_map_of_mem hr')
    have hev : (d.spawn row now e).eventsOf r'.id = d.eventsOf r'.id := by
      rw [hu.eventsOf_spawn he, if_neg hne]
    rw [Unleveraged, hev] at hlev
    rw [hev]
    exact h r' hr' hlev
  · have hmargins : margins [e.row now 0] = e.marginDeltaUsdt := List.sum_singleton
    rw [hu.eventsOf_spawn he, if_pos rfl]
    have hnil : Telescopes [] := fun n b hb => by cases hb
    refine ⟨telescopes_append_singleton.mpr ⟨hnil, ?_⟩, fun _ => ?_, fun hc => absurd hst hc⟩
    · rw [show margins [] = 0 from rfl, zero_add]
      exact hafter
    · rw [hmargins]
      exact hsize

end Ledger

open Ledger

/-! ## The writers -/

section Weighs

variable {r : TradeRow} {m : ℚ}

theorem ScaleArgs.weighs (a : ScaleArgs) (ho : r.status = .open_)
    (hm : r.currentSizeUsdt = some m) :
    Weighs (a.event r.scaleCols) (a.update r.scaleCols) r m where
  after := by
    have hprev : ScaleArgs.prevSize r.scaleCols = m := by
      rw [ScaleArgs.prevSize, TradeRow.scaleCols, hm, Option.getD_some]
    rw [ScaleArgs.event, hprev, add_sub_cancel]
  live _ := rfl
  ended hc := absurd ho hc

/-- The close takes its change from the size at entry. -/
theorem PersistArgs.weighs_iff (a : PersistArgs) :
    Weighs (a.event r.closeCols) (a.update r.closeCols) r m ↔ m = r.sizeUsdt.getD 0 := by
  have hafter : (a.event r.closeCols).sizeUsdtAfter =
      some (m + (a.event r.closeCols).marginDeltaUsdt) ↔
      m = r.sizeUsdt.getD 0 := by
    simp only [PersistArgs.event, TradeRow.closeCols, Option.some.injEq]
    constructor <;> intro h <;> linarith
  exact ⟨fun h => hafter.mp h.after,
    fun h => ⟨hafter.mpr h, (by rintro ⟨⟩), fun _ => rfl⟩⟩

/-- The flip takes its change from the current size, and from the size at entry if that is 0. -/
theorem FlipArgs.weighs_iff (a : FlipArgs) (hm : r.currentSizeUsdt = some m) :
    Weighs (a.closeEvent r.flipCols) (a.update r.flipCols) r m ↔
      (m = 0 → r.sizeUsdt.getD 0 = 0) := by
  have hafter : (a.closeEvent r.flipCols).sizeUsdtAfter =
      some (m + (a.closeEvent r.flipCols).marginDeltaUsdt) ↔ (m = 0 → r.sizeUsdt.getD 0 = 0) := by
    simp only [FlipArgs.closeEvent, TradeRow.flipCols, hm, pyOr, Option.some.injEq]
    split
    · next hzero => simp [hzero, eq_comm]
    · next hne => simp [hne]
  exact ⟨fun h => hafter.mp h.after,
    fun h => ⟨hafter.mpr h, (by rintro ⟨⟩), fun _ => rfl⟩⟩

end Weighs

/-! ## Steps -/

/-- A close that books is made. -/
theorem Call.Books.run_eq {env : Env} {d : Ledger} {c : Call} {p : PersistArgs} {r : TradeRow}
    (h : c.Books env d p) (hr : d.openTrade? p.tradeId = some r) :
    (c.run env d).1 =
      d.amend p.tradeId (p.update r.closeCols) p.exitTime (p.event r.closeCols) := by
  cases h with
  | @perp a r' _ _ hr' hp =>
    obtain ⟨_, _, _, _, -, -, -, -, hargs⟩ := perpCloseBooking_spec hp
    have hid : p.tradeId = a.tradeId := by rw [hargs]
    rw [Call.run, Call.prog, closePerpTrade, Prog.run, Prog.runWith_beginImmediate,
      Prog.runWith_select, Option.getD_none, Option.getD_some, hr']
    simp only [Prog.runWith_select, Option.getD_some, hp]
    rw [persistClose_runWith rfl, Option.getD_some, hr]
    rfl
  | @carry a r' _ hr' hp =>
    rw [Call.run, Call.prog, closeCarryTrade, Prog.run, Prog.runWith_select, Option.getD_none, hr']
    simp only [Option.map_some, hp]
    rw [← Prog.run, persistCloseAlone_run, hr]
  | persist => rw [Call.run, Call.prog, persistCloseAlone_run, hr]

/-- A close that books is of a trade whose size is that at entry, and a flip that takes effect is
not of a trade that was resized to nothing. -/
structure Call.KeepsSize (env : Env) (d : Ledger) (c : Call) : Prop where
  close : ∀ p r, c.Books env d p → d.openTrade? p.tradeId = some r → d.Unleveraged r.id →
    r.currentSizeUsdt.getD 0 = r.sizeUsdt.getD 0
  flip : ∀ a r, c = .flip a → d.openTrade? a.tradeId = some r →
    (∀ text, a.newDirection ≠ .other text) →
    r.direction ≠ a.newDirection → d.Unleveraged r.id → r.currentSizeUsdt.getD 0 = 0 →
      r.sizeUsdt.getD 0 = 0

section steps

variable {env : Env} {d d' : Ledger} {c : Call}

theorem Ledger.AllMargined.effect (hd : d.Consistent) (h : d.AllMargined)
    (hkeeps : c.KeepsSize env d) (hc : c.Effect env d d') : d'.AllMargined := by
  cases hc with
  | @opened a hk => exact h.spawn (hd.minted.unused rfl (by rintro k ⟨⟩; exact hk)) rfl rfl rfl rfl
  | scaled hr _ hrec =>
    exact h.amend hr rfl hrec fun _ _ hm => ScaleArgs.weighs _ (openTrade?_eq_some hr).2.2 hm
  | leveraged hr hrec => exact h.amend hr rfl hrec fun hlev => absurd rfl hlev
  | @flipped a r mid hr hdir hne hmid =>
    have hmidM : mid.Minted := hmid ▸ hd.minted.amend (has_of_openTrade? hr)
    have hmidA : mid.AllMargined := by
      rw [hmid]
      refine h.amend hr rfl (hd.recorded_terminal _ hr rfl (.inr rfl)) fun _ hlev hm => ?_
      refine (FlipArgs.weighs_iff a hm).mpr fun hzero => ?_
      exact hkeeps.flip a r rfl hr hdir hne hlev (by rw [hm, Option.getD_some, hzero])
    exact hmidA.spawn (hmidM.unused rfl (by rintro k ⟨⟩)) rfl rfl rfl rfl
  | @closed _ p r hbooks hr =>
    refine h.amend hr rfl (hd.recorded_terminal _ hr rfl (.inl rfl)) fun _ hlev hm => ?_
    refine (PersistArgs.weighs_iff p).mpr ?_
    rw [← hkeeps.close p r hbooks hr hlev, hm, Option.getD_some]

/-- A trade that ends with margins that add up has had a last event that weighed its size. -/
theorem Ledger.MarginLedger.weighs {tid : String} {r : TradeRow} {u : TradeUpdate} {now : Time}
    {e : RecordArgs} (h : d.AllMargined) (hr : d.openTrade? tid = some r)
    (ht : e.eventType.Terminal) (hlev : d.Unleveraged r.id) (hset : r.set u ∈ d'.trades)
    (hev : d'.eventsOf r.id = d.eventsOf r.id ++ [e.row now (d.nextSeq r.id)])
    (H : d'.MarginLedger) : ∃ m, r.currentSizeUsdt = some m ∧
      e.sizeUsdtAfter = some (m + e.marginDeltaUsdt) := by
  obtain ⟨hmem, _, ho⟩ := openTrade?_eq_some hr
  have hlev' : d'.Unleveraged (r.set u).id := by
    rw [Unleveraged, show (r.set u).id = r.id from rfl, hev]
    intro b hb
    rcases List.mem_append.mp hb with hb | hb
    · exact hlev b hb
    · rw [List.mem_singleton.mp hb]
      rintro htype
      rw [show e.eventType = .leverageAdjust from htype] at ht
      rcases ht with ht | ht <;> cases ht
  have htel := (H _ hset hlev').1
  rw [show (r.set u).id = r.id from rfl, hev, telescopes_append_singleton] at htel
  exact ⟨_, (h r hmem hlev).current ho, htel.2⟩

/-- The step lemma: the margins keep adding up exactly if the call keeps the size. -/
theorem Call.keepsSize_iff (env : Env) (hd : d.Consistent) (h : d.AllMargined) (c : Call) :
    (c.KeepsSize env d → (c.run env d).1.AllMargined) ∧
      ((c.run env d).1.MarginLedger → c.KeepsSize env d) := by
  constructor
  · intro hkeeps
    rcases c.run_cases env hd.minted with hrun | hrun
    · rwa [hrun]
    · exact h.effect hd hkeeps hrun
  · intro H
    constructor
    · intro p r hbooks hr hlev
      have hrec := hd.recorded_terminal p.exitTime hr (e := p.event r.closeCols) rfl (.inl rfl)
      rw [hbooks.run_eq hr] at H
      obtain ⟨m, hm, hafter⟩ := H.weighs h hr (.inl rfl) hlev (set_mem_amend hr)
        (eventsOf_amend_self hr rfl hrec)
      rw [hm, Option.getD_some]
      exact (PersistArgs.weighs_iff p).mp ⟨hafter, (by rintro ⟨⟩), fun _ => rfl⟩
    · rintro a r rfl hr hdir hne hlev hzero
      have hrec := hd.recorded_terminal a.flipTime hr (e := a.closeEvent r.flipCols) rfl (.inr rfl)
      obtain ⟨mid, hmid⟩ : ∃ mid, mid = d.amend a.tradeId (a.update r.flipCols) a.flipTime
        (a.closeEvent r.flipCols) := ⟨_, rfl⟩
      have hmidM : mid.Minted := hmid ▸ hd.minted.amend (has_of_openTrade? hr)
      have hu : mid.Unused (a.childRow r.flipCols mid.nextSjId) :=
        hmidM.unused rfl (by rintro k ⟨⟩)
      have hset : r.set (a.update r.flipCols) ∈ mid.trades := hmid ▸ set_mem_amend hr
      have hold : r.id ∈ mid.trades.map (·.id) := List.mem_map.mpr ⟨_, hset, rfl⟩
      have hnew : (a.childRow r.flipCols mid.nextSjId).id ≠ r.id := fun hc => hu.id (hc ▸ hold)
      have hrun : ((Call.flip a).run env d).1 = mid.spawn (a.childRow r.flipCols mid.nextSjId)
          a.flipTime (a.openEvent r.flipCols mid.nextSjId) :=
        congrArg Prod.fst (applyFlip_run hd.minted hr hdir hne hmid)
      rw [hrun] at H
      obtain ⟨m, hm, hafter⟩ := H.weighs h hr (.inr rfl) hlev
        (by rw [hu.spawn_trades]; exact List.mem_append_left _ hset)
        (by rw [hu.eventsOf_spawn rfl, if_neg hnew, hmid]; exact eventsOf_amend_self hr rfl hrec)
      rw [hm, Option.getD_some] at hzero
      exact (FlipArgs.weighs_iff a hm).mp ⟨hafter, (by rintro ⟨⟩), fun _ => rfl⟩ hzero

end steps

/-! ## Every run -/

theorem marginLedger_runs (env : Env) {d : Ledger} {calls : List Call} (hd : d.Consistent)
    (h : d.AllMargined) : (∀ n, (runAll env (calls.take n) d).MarginLedger) ↔
      ∀ n (c : Call), calls[n]? = some c → c.KeepsSize env (runAll env (calls.take n) d) := by
  refine Runs.all_good_iff (fun _ d => d.Consistent ∧ d.AllMargined) MarginLedger
    (fun d (c : Call) => c.KeepsSize env d) ?_ ?_ ?_ ⟨hd, h⟩
  · rintro _ d ⟨_, h⟩
    exact h.marginLedger
  · rintro c _ d ⟨hd, h⟩ hc
    exact ⟨hd.run c, (c.keepsSize_iff env hd h).1 hc⟩
  · rintro c _ d ⟨hd, h⟩ H
    exact (c.keepsSize_iff env hd h).2 H

/-- On all ledgers of a run from the empty one the margins add up, exactly if each call of the run
keeps the size. -/
theorem marginLedger_iff (env : Env) (calls : List Call) :
    (∀ n, (runAll env (calls.take n) empty).MarginLedger) ↔
      ∀ n (c : Call), calls[n]? = some c → c.KeepsSize env (runAll env (calls.take n) empty) :=
  marginLedger_runs env .empty fun _ h => (List.not_mem_nil h).elim

/-- A trade of 1000 that is doubled and closed. -/
def doubled : List Call := [
  .openTrade {
    variantId := "V", sleeveName := "EMA_BTC", asset := "BTC", direction :=
      .long, entryPrice := 1000,
    allocationPct := 10, signalTimeIso := some "k", now := 3_600_000_000 },
  .scale { tradeId := "SJ-0001", newQty := 2, price := 1000, now := 7_200_000_000 },
  .closePerp { tradeId := "SJ-0001", exitPrice := 1000, now := 10_800_000_000 }]

/-- The close takes back the 1000 of the entry, and 1000 remain. -/
theorem doubled_keeps_margin :
    ¬ ∀ env (calls : List Call) n, (runAll env (calls.take n) empty).MarginLedger := by
  intro h
  have hrow : ∃ r ∈ (runAll quietEnv (doubled.take 3) empty).trades, r.id = "SJ-0001" ∧
      r.status ≠ .open_ ∧ (∀ b ∈ (runAll quietEnv (doubled.take 3) empty).eventsOf "SJ-0001",
        b.eventType ≠ .leverageAdjust) ∧
      margins ((runAll quietEnv (doubled.take 3) empty).eventsOf "SJ-0001") ≠ 0 := by
    decide +kernel
  obtain ⟨r, hr, hid, hclosed, hlev, hsum⟩ := hrow
  have hzero := (h quietEnv doubled 3 r hr (by rw [hid]; exact hlev)).2 hclosed
  rw [hid] at hzero
  exact hsum hzero

end P300
