import P300.Lib.AvgCost
import P300.Ledger.History
import Mathlib.Tactic.Ring

/-!
# Booked P&L is cash flow

A perp trade keeps its quantity, average price and realised P&L in its row, and its events record
what was bought and sold at which price. While the trade is open the two are the books of an
average-cost position (`Ledger.Booked`), so a final close at the running average books exactly the
cash that the events returned, less the fees of the scale-downs and of the close, plus funding.
-/

namespace P300

open Ledger AvgCost

/-- The sign of a position's quantity. -/
def Direction.side : Direction → ℚ
  | .short => -1
  | _ => 1

/-- The cash that the quantities of the events returned, at their prices. -/
def quantityCash (es : List Adjustment) : ℚ := -(es.map fun b => b.qtyDelta * b.price.getD 0).sum

/-- The fees of the `SCALE_DOWN` events. -/
def scaleDownFees (es : List Adjustment) : ℚ :=
  ((es.filter fun b => b.eventType = .scaleDown).map fun b => b.feeUsdt.getD 0).sum

theorem quantityCash_append (es : List Adjustment) (b : Adjustment) :
    quantityCash (es ++ [b]) = quantityCash es - b.qtyDelta * b.price.getD 0 := by
  simp [quantityCash]
  ring

theorem scaleDownFees_append (es : List Adjustment) (b : Adjustment) :
    scaleDownFees (es ++ [b]) =
      scaleDownFees es + if b.eventType = .scaleDown then b.feeUsdt.getD 0 else 0 := by
  rw [scaleDownFees, List.filter_append, List.map_append, List.sum_append, ← scaleDownFees]
  by_cases h : b.eventType = .scaleDown <;> simp [h]

/-- The cash of an open trade. -/
def openCash (es : List Adjustment) : ℚ := quantityCash es - scaleDownFees es

/-- The row of `r` keeps the books of its events. -/
structure Ledger.Keeps (es : List Adjustment) (r : TradeRow) (b : Book ℚ) : Prop where
  qty : r.currentQty = some b.qty
  basis : r.avgEntryPrice = some b.basis
  realized : r.realizedPnlUsdt = some b.realized
  cash : b.cash = openCash es
  balanced : b.Balanced r.direction.side

/-- A scale-down of a trade with a positive average price, or a scale-up to a positive quantity. In
any other case `apply_scale` leaves the average price alone and realises nothing. -/
def ScaleArgs.Booking (a : ScaleArgs) (row : ScaleCols) : Prop :=
  (a.qtyDelta row < 0 → 0 < ScaleArgs.prevAvg row) ∧ (0 < a.qtyDelta row → 0 < a.newQty)

section steps

variable {es : List Adjustment} {r : TradeRow} {b : Book ℚ} {seq : Nat}

theorem side_of_perp (h : r.direction.Perp) (q : ℚ) :
    (if r.direction = .long then q else -q) = r.direction.side * q := by
  rcases h with h | h <;> simp [h, Direction.side]

theorem side_of_move (h : r.direction.Perp) (q : ℚ) :
    (if r.direction = .short then -q else q) = r.direction.side * q := by
  rcases h with h | h <;> simp [h, Direction.side]

theorem ScaleArgs.keeps (a : ScaleArgs) (hdir : r.direction.Perp) (hk : Keeps es r b)
    (hp : a.Booking r.scaleCols) (hn : ¬ negligible (a.qtyDelta r.scaleCols)) :
    ∃ b', Keeps (es ++ [(a.event r.scaleCols).row a.now seq])
    (r.set (a.update r.scaleCols)) b' := by
  have hprev : ScaleArgs.prevQty r.scaleCols = b.qty := by
    simp [ScaleArgs.prevQty, TradeRow.scaleCols, hk.qty]
  have havg : ScaleArgs.prevAvg r.scaleCols = b.basis := by
    simp [ScaleArgs.prevAvg, TradeRow.scaleCols, hk.basis]
  have hdelta : a.qtyDelta r.scaleCols = a.newQty - b.qty := by rw [ScaleArgs.qtyDelta, hprev]
  have hne : a.newQty ≠ b.qty := by
    intro e
    rw [hdelta, e, sub_self] at hn
    exact hn (by simp [negligible])
  have hcash : openCash (es ++ [(a.event r.scaleCols).row a.now seq]) =
      openCash es - r.direction.side * (a.newQty - b.qty) * a.price -
        if (a.event r.scaleCols).eventType = .scaleDown then a.feeUsdt else 0 := by
    have hq : ((a.event r.scaleCols).row a.now seq).qtyDelta =
        r.direction.side * (a.newQty - b.qty) := (side_of_perp hdir _).trans (by rw [hdelta])
    have hf : ((a.event r.scaleCols).row a.now seq).feeUsdt = some a.feeUsdt := rfl
    have hpr : ((a.event r.scaleCols).row a.now seq).price = some a.price := rfl
    have he : ((a.event r.scaleCols).row a.now seq).eventType = (a.event r.scaleCols).eventType :=
      rfl
    rw [openCash, quantityCash_append, scaleDownFees_append, hq, hf, hpr, he, openCash,
      Option.getD_some, Option.getD_some]
    ring
  rcases lt_or_gt_of_ne hne with hlt | hgt
  · have hd : a.qtyDelta r.scaleCols < 0 := by rw [hdelta]; exact sub_neg.mpr hlt
    have ht : (a.event r.scaleCols).eventType = .scaleDown := if_neg hd.not_gt
    have hreal : a.realizedDelta r.scaleCols =
        r.direction.side * (b.qty - a.newQty) * (a.price - b.basis) - a.feeUsdt := by
      have hmove : (if r.scaleCols.direction = .short then -(a.price - b.basis)
          else a.price - b.basis) = r.direction.side * (a.price - b.basis) := side_of_move hdir _
      rw [ScaleArgs.realizedDelta, if_pos ⟨hd, hp.1 hd⟩, havg, hdelta]
      dsimp only
      rw [hmove]
      ring
    refine ⟨b.decrease r.direction.side a.newQty a.price a.feeUsdt, rfl, ?_, ?_, ?_,
      hk.balanced.decrease ..⟩
    · simp [TradeRow.set, ScaleArgs.update, ScaleArgs.newAvg, havg, hd, hd.not_gt, Book.decrease]
    · simp [TradeRow.set, ScaleArgs.update, hk.realized, hd, hreal, Book.decrease]
    · rw [hcash, if_pos ht, Book.decrease, hk.cash]
      ring
  · have hd : 0 < a.qtyDelta r.scaleCols := by rw [hdelta]; exact sub_pos.mpr hgt
    have ht : (a.event r.scaleCols).eventType = .scaleUp := if_pos hd
    have h0 : 0 < a.newQty := hp.2 hd
    refine ⟨b.increase r.direction.side a.newQty a.price, rfl, ?_, ?_, ?_,
      hk.balanced.increase _ h0.ne'⟩
    · simp [TradeRow.set, ScaleArgs.update, ScaleArgs.newAvg, hprev, havg, hdelta, hgt, hgt.not_gt,
        h0, Book.increase, average]
    · simp [TradeRow.set, ScaleArgs.update, hk.realized, hd.not_gt, Book.increase]
    · rw [hcash, ht, if_neg (by decide), Book.increase, hk.cash, sub_zero]

theorem LeverageArgs.keeps (a : LeverageArgs) (hk : Keeps es r b) :
    Keeps (es ++ [(a.event r.leverageCols).row a.now seq]) (r.set (a.update r.leverageCols)) b where
  qty := hk.qty
  basis := hk.basis
  realized := hk.realized
  cash := by
    have hq : ((a.event r.leverageCols).row a.now seq).qtyDelta = 0 := rfl
    have ht : ((a.event r.leverageCols).row a.now seq).eventType ≠ .scaleDown := fun h => nomatch h
    rw [openCash, quantityCash_append, scaleDownFees_append, hq, if_neg ht, hk.cash, openCash]
    ring
  balanced := hk.balanced

/-- A new trade. -/
theorem keeps_open {e : RecordArgs} {now : Time} {qty price : ℚ} (hdir : r.direction.Perp)
    (ht : e.eventType = .open_) (hq : e.qtyDelta = if r.direction = .long then qty else -qty)
    (hp : e.price = some price) (hr : r.currentQty = some qty) (hr' : r.avgEntryPrice = some price)
    (hr'' : r.realizedPnlUsdt = some 0) :
    Keeps [e.row now seq] r ⟨qty, price, 0, -(r.direction.side * qty * price)⟩ where
  qty := hr
  basis := hr'
  realized := hr''
  cash := by
    rw [side_of_perp hdir] at hq
    simp [openCash, quantityCash, scaleDownFees, RecordArgs.row, ht, hq, hp]
  balanced := Book.balanced_open ..

end steps

/-! ## Runs -/

/-- What holds of the row of a new trade and its events, and is kept by every resize that is `ok`,
for as long as the trade is open. -/
structure Ledger.OpenRule (ok : ScaleArgs → ScaleCols → Prop)
    (P : List Adjustment → TradeRow → Prop) : Prop where
  opened : ∀ (a : OpenArgs) tid, P [(a.event tid).row a.now 0] (a.row tid)
  child : ∀ (a : FlipArgs) cols tid, P [(a.openEvent cols tid).row a.flipTime 0]
    (a.childRow cols tid)
  scaled : ∀ {es r} (a : ScaleArgs) seq, P es r → ok a r.scaleCols →
    ¬ negligible (a.qtyDelta r.scaleCols) →
    P (es ++ [(a.event r.scaleCols).row a.now seq]) (r.set (a.update r.scaleCols))
  leveraged : ∀ {es r} (a : LeverageArgs) seq, P es r →
    P (es ++ [(a.event r.leverageCols).row a.now seq]) (r.set (a.update r.leverageCols))

/-- If `c` resizes the trade `tid`, it is `ok`. -/
def Call.OkFor (ok : ScaleArgs → ScaleCols → Prop) (tid : String) (d : Ledger) : Call → Prop
  | .scale a => a.tradeId = tid → ∀ r, d.openTrade? tid = some r → ok a r.scaleCols
  | _ => True

/-- Every resize of `tid` in the run is `ok` where it is made. -/
def OkRun (ok : ScaleArgs → ScaleCols → Prop) (env : Env) (tid : String) (calls : List Call)
    (d : Ledger) : Prop :=
  ∀ pre c post, calls = pre ++ c :: post → c.OkFor ok tid (runAll env pre d)

theorem OkRun.tail {ok : ScaleArgs → ScaleCols → Prop} {env : Env} {tid : String} {c : Call}
    {calls : List Call} {d : Ledger} (h : OkRun ok env tid (c :: calls) d) :
    OkRun ok env tid calls (c.run env d).1 := by
  intro pre c' post e
  have := h (c :: pre) c' post (by rw [e, List.cons_append])
  rwa [runAll_cons] at this

/-- The trade was opened at a positive price and with no negative quantity. -/
structure TradeEntry.Priced (x : TradeEntry) : Prop where
  price : ∃ price, x.entryPrice = some price ∧ 0 < price
  qty : ∃ qty, x.qty = some qty ∧ 0 ≤ qty

/-- A resize to no negative quantity, and up only at a positive price. -/
def ScaleArgs.Priced (a : ScaleArgs) (row : ScaleCols) : Prop :=
  0 ≤ a.newQty ∧ (0 < a.qtyDelta row → 0 < a.price)

theorem okRun_of_forall {ok : ScaleArgs → ScaleCols → Prop} {env : Env} {tid : String}
    {calls : List Call} {d : Ledger} (h : ∀ a, Call.scale a ∈ calls → ∀ row, ok a row) :
    OkRun ok env tid calls d := by
  intro pre c post e
  have hmem : c ∈ calls := by
    rw [e]
    exact List.mem_append_right _ List.mem_cons_self
  cases c with
  | scale a => exact fun _ r _ => h a hmem r.scaleCols
  | openTrade | closePerp | closeCarry | persistClose | leverage | flip => trivial

namespace Ledger

variable {ok : ScaleArgs → ScaleCols → Prop} {P : List Adjustment → TradeRow → Prop}
  {env : Env} {d d' : Ledger} {tid t : String} {u : TradeUpdate} {now : Time}
  {e : RecordArgs} {row r : TradeRow}

/-- `P` holds of the row of `tid` and its events while the trade is open. -/
def WhileOpen (P : List Adjustment → TradeRow → Prop) (tid : String) (d : Ledger) : Prop :=
  ∀ r ∈ d.trades, r.id = tid → r.status = .open_ → P (d.eventsOf r.id) r

theorem WhileOpen.amend (h : d.WhileOpen P tid) (hr : d.openTrade? t = some r) (he : e.tradeId = t)
    (hrec : d.recorded now e ≠ [])
    (hstep : t = tid → (r.set u).status = .open_ → P (d.eventsOf r.id) r →
      P (d.eventsOf r.id ++ [e.row now (d.nextSeq r.id)]) (r.set u)) :
    (d.amend t u now e).WhileOpen P tid := by
  intro r' hr' hid' ho'
  obtain ⟨hm, hid, ho⟩ := openTrade?_eq_some hr
  rcases mem_amend hr hr' with rfl | ⟨hm', hne⟩
  · have hidr : r.id = tid := hid'
    rw [show (r.set u).id = r.id from rfl, eventsOf_amend_self hr he hrec]
    exact hstep (hid.symm.trans hidr) ho' (h r hm hidr ho)
  · have hne' : e.tradeId ≠ r'.id := fun hc => hne (hc.symm.trans he)
    rw [eventsOf_amend, if_neg hne', List.append_nil]
    exact h r' hm' hid' ho'

theorem WhileOpen.spawn (h : d.WhileOpen P tid) (hu : d.Unused row) (he : e.tradeId = row.id)
    (hopen : P [e.row now 0] row) : (d.spawn row now e).WhileOpen P tid := by
  intro r' hr' hid' ho'
  rw [hu.spawn_trades, List.mem_append, List.mem_singleton] at hr'
  rw [hu.eventsOf_spawn he]
  rcases hr' with hr' | rfl
  · have hne : row.id ≠ r'.id := fun hc => hu.id (by rw [hc]; exact List.mem_map_of_mem hr')
    rw [if_neg hne]
    exact h r' hr' hid' ho'
  · rw [if_pos rfl]
    exact hopen

/-- The step lemma. -/
theorem WhileOpen.effect (hP : OpenRule ok P) {c : Call} (h : d.WhileOpen P tid) (hd : d.Consistent)
    (hc : c.OkFor ok tid d) (he : c.Effect env d d') : d'.WhileOpen P tid := by
  cases he with
  | @opened a hk =>
    have hu : d.Unused (a.row d.nextSjId) := hd.minted.unused rfl (by rintro k ⟨⟩; exact hk)
    exact h.spawn hu rfl (hP.opened a _)
  | @scaled a r hr hn hrec =>
    refine h.amend hr rfl hrec fun ht _ hp => ?_
    exact hP.scaled a _ hp (hc ht r (ht ▸ hr)) hn
  | @leveraged a r hr hrec =>
    exact h.amend hr rfl hrec fun _ _ hp => hP.leveraged a _ hp
  | @flipped a r mid hr _ _ hmid =>
    have hm : mid.WhileOpen P tid := by
      rw [hmid]
      exact h.amend hr rfl (hd.recorded_terminal _ hr rfl (.inr rfl)) fun _ ho => nomatch ho
    have hmm : mid.Minted := hmid ▸ hd.minted.amend (has_of_openTrade? hr)
    have hu : mid.Unused (a.childRow r.flipCols mid.nextSjId) :=
      hmm.unused rfl (by rintro k ⟨⟩)
    exact hm.spawn hu rfl (hP.child a _ _)
  | closed _ hr =>
    exact h.amend hr rfl (hd.recorded_terminal _ hr rfl (.inl rfl)) fun _ ho => nomatch ho

/-- The run lemma. -/
theorem WhileOpen.runAll (hP : OpenRule ok P) {calls : List Call} (h : d.WhileOpen P tid)
    (hd : d.Consistent) (hc : OkRun ok env tid calls d) : (runAll env calls d).WhileOpen P tid := by
  induction calls generalizing d with
  | nil => exact h
  | cons c calls ih =>
    have h' : (c.run env d).1.WhileOpen P tid := by
      rcases c.run_cases env hd.minted with he | he
      · rw [he]
        exact h
      · exact h.effect hP hd (hc [] c calls rfl) he
    rw [runAll_cons]
    exact ih h' (hd.run c) hc.tail

theorem whileOpen_of_new (h : ¬ d.Has tid) : d.WhileOpen P tid :=
  fun _ hr hid _ => absurd ⟨_, List.mem_map_of_mem hr, hid⟩ h

/-- A perp row keeps the books of its events. -/
def Booked (es : List Adjustment) (r : TradeRow) : Prop := r.direction.Perp → ∃ b, Keeps es r b

theorem booked_rule : OpenRule ScaleArgs.Booking Booked where
  opened _ _ hdir := ⟨_, keeps_open hdir rfl rfl rfl rfl rfl rfl⟩
  child _ _ _ hdir := ⟨_, keeps_open hdir rfl rfl rfl rfl rfl rfl⟩
  scaled a _ h hok hn hdir := by
    obtain ⟨b, hb⟩ := h hdir
    exact a.keeps hdir hb hok hn
  leveraged a _ h hdir := by
    obtain ⟨b, hb⟩ := h hdir
    exact ⟨b, a.keeps hb⟩

/-- The row has a quantity of at least nothing, at a positive average price. -/
def Solvent (_ : List Adjustment) (r : TradeRow) : Prop :=
  r.toTradeEntry.Priced → ∃ qty avg, r.currentQty = some qty ∧ 0 ≤ qty ∧
    r.avgEntryPrice = some avg ∧ 0 < avg

theorem solvent_rule : OpenRule ScaleArgs.Priced Solvent where
  opened a tid h := by
    obtain ⟨⟨price, hprice, hp0⟩, ⟨qty, hqty, hq0⟩⟩ := h
    exact ⟨qty, price, hqty, hq0, hprice, hp0⟩
  child a cols tid h := by
    obtain ⟨⟨price, hprice, hp0⟩, ⟨qty, hqty, hq0⟩⟩ := h
    exact ⟨qty, price, hqty, hq0, hprice, hp0⟩
  scaled {es r} a seq h hok hn hp := by
    obtain ⟨qty, avg, hq, hq0, ha, ha0⟩ := h hp
    refine ⟨a.newQty, a.newAvg r.scaleCols, rfl, hok.1, rfl, ?_⟩
    have hprev : ScaleArgs.prevQty r.scaleCols = qty := by
      simp [ScaleArgs.prevQty, TradeRow.scaleCols, hq]
    have havg : ScaleArgs.prevAvg r.scaleCols = avg := by
      simp [ScaleArgs.prevAvg, TradeRow.scaleCols, ha]
    rw [ScaleArgs.newAvg, havg]
    split
    · exact ha0
    · split
      · next hd =>
        have hup : qty < a.newQty := by
          have := hd.1
          rw [ScaleArgs.qtyDelta, hprev] at this
          exact sub_pos.mp this
        rw [ScaleArgs.qtyDelta, hprev]
        exact average_pos hq0 ha0 hup (hok.2 hd.1)
      · exact ha0
  leveraged _ _ h := h

/-- The entry of the trade `tid`, if the ledger has it, has a positive price and quantity. -/
def EntryPriced (tid : String) (d : Ledger) : Prop := ∀ x ∈ d.entries, x.id = tid → x.Priced

/-- With positive prices and no negative quantity, every resize books what it moves. -/
theorem okRun_booking {calls : List Call} (hd : d.Consistent) (hnew : ¬ d.Has tid)
    (hentry : (P300.runAll env calls d).EntryPriced tid)
    (h : OkRun ScaleArgs.Priced env tid calls d) : OkRun ScaleArgs.Booking env tid calls d := by
  intro pre c post e
  have hpre : OkRun ScaleArgs.Priced env tid pre d := by
    intro pre' c' post' e'
    exact h pre' c' (post' ++ c :: post) (by rw [e, e', List.append_assoc, List.cons_append])
  have hw := (whileOpen_of_new hnew).runAll solvent_rule hd hpre
  have hc := h pre c post e
  cases c with
  | scale a =>
    intro ht r hr
    obtain ⟨hm, hid, ho⟩ := openTrade?_eq_some hr
    have hgrow : r.toTradeEntry ∈ (P300.runAll env calls d).entries := by
      rw [e, runAll_append]
      exact (grows_runAll (consistent_runAll hd pre) (.scale a :: post)).entries.subset
        (List.mem_map_of_mem hm)
    obtain ⟨qty, avg, hq, hq0, ha, ha0⟩ := hw r hm hid ho (hentry _ hgrow hid)
    refine ⟨fun _ => ?_, fun hup => ?_⟩
    · simpa [ScaleArgs.prevAvg, TradeRow.scaleCols, ha] using ha0
    · have hprev : ScaleArgs.prevQty r.scaleCols = qty := by
        simp [ScaleArgs.prevQty, TradeRow.scaleCols, hq]
      rw [ScaleArgs.qtyDelta, hprev] at hup
      exact hq0.trans_lt (sub_pos.mp hup)
  | openTrade | closePerp | closeCarry | persistClose | leverage | flip => trivial

end Ledger

/-! ## The final close -/

/-- The components of a close add up. -/
theorem computePerpClose_pnl {env : Env} {direction : Direction} {entry exit qty size : ℚ}
    {asset : String} {entryDt exitDt : Time} {costBp slipBp : ℚ} {funding : Bool}
    {c : CloseComponents} (h : computePerpClose env direction entry exit qty size asset entryDt
      exitDt costBp slipBp funding = .ok c) :
    c.pnlUsdt = direction.side * (exit - entry) * qty - c.costUsdt + c.fundingUsdt := by
  cases direction with
  | long =>
    cases h
    simp [Direction.side]
  | short =>
    cases h
    simp [Direction.side]
  | other text => cases h

/-- The funding that the call books: `funding_usdt` of a perp close, and nothing otherwise. -/
def Call.fundingUsdt (env : Env) (d : Ledger) : Call → ℚ
  | .closePerp a =>
    match d.openTrade? a.tradeId with
    | some r =>
      match perpCloseBooking env a r ((d.eventsOf a.tradeId).map (·.eventTime)) with
      | .ok (_, comps) => comps.fundingUsdt
      | .error _ => 0
    | none => 0
  | _ => 0

/-- A perp close or a flip of `tid`. -/
def Call.Ends (tid : String) : Call → Prop
  | .closePerp a => a.tradeId = tid
  | .flip a => a.tradeId = tid
  | _ => False

/-- What a trade that was closed after the events `es` with the event `e` has booked: the cash of
all its quantities, less the fees of its scale-downs and of the close, plus funding. -/
def finalCash (es : List Adjustment) (e : Adjustment) (funding : ℚ) : ℚ :=
  quantityCash (es ++ [e]) - scaleDownFees (es ++ [e]) - e.feeUsdt.getD 0 + funding

section final

variable {es : List Adjustment} {r : TradeRow} {b : Book ℚ} {seq : Nat}

/-- Selling or buying back everything at `price` for `fee`, plus `funding`. -/
theorem Ledger.Keeps.final (hk : Keeps es r b) {e : Adjustment} {price fee funding : ℚ}
    (hq : e.qtyDelta = -(r.direction.side * b.qty)) (hp : e.price = some price)
    (hf : e.feeUsdt = some fee) (ht : e.eventType ≠ .scaleDown) :
    b.realized + (r.direction.side * (price - b.basis) * b.qty - fee + funding) =
      finalCash es e funding := by
  have hflat := (hk.balanced.decrease 0 price fee).flat rfl
  simp only [Book.decrease, hk.cash, openCash] at hflat
  rw [finalCash, quantityCash_append, scaleDownFees_append, if_neg ht, hq, hp, hf,
    Option.getD_some, Option.getD_some]
  linear_combination hflat

theorem PersistArgs.final (p : PersistArgs) (hdir : r.direction.Perp) (hk : Keeps es r b)
    {funding : ℚ} (hp : p.pnlUsdt =
      r.direction.side * (p.exitPrice - b.basis) * b.qty - p.feeUsdt + funding) :
    (r.set (p.update r.closeCols)).pnlUsdt =
      some (finalCash es ((p.event r.closeCols).row p.exitTime seq) funding) := by
  have hq : ((p.event r.closeCols).row p.exitTime seq).qtyDelta = -(r.direction.side * b.qty) := by
    have hrem : r.closeCols.currentQty.getD (r.closeCols.qty.getD 0) = b.qty := by
      simp [TradeRow.closeCols, hk.qty]
    rw [← side_of_perp hdir]
    show (if r.direction = .long then _ else _) = _
    rw [hrem]
    split <;> simp
  have hcash : b.realized + p.pnlUsdt =
      finalCash es ((p.event r.closeCols).row p.exitTime seq) funding := by
    rw [hp]
    exact hk.final hq rfl rfl (by intro h; cases h)
  rw [← hcash]
  simp [TradeRow.set, PersistArgs.update, PersistArgs.cumulativePnl, TradeRow.closeCols,
    hk.realized]

theorem FlipArgs.final (a : FlipArgs) (hdir : r.direction.Perp) (hk : Keeps es r b) :
    (r.set (a.update r.flipCols)).pnlUsdt =
      some (finalCash es ((a.closeEvent r.flipCols).row a.flipTime seq) 0) := by
  have hcur : FlipArgs.curQty r.flipCols = b.qty := by
    simp [FlipArgs.curQty, TradeRow.flipCols, hk.qty]
  have hq : ((a.closeEvent r.flipCols).row a.flipTime seq).qtyDelta =
      -(r.direction.side * b.qty) := by
    rw [← side_of_perp hdir]
    show (if r.direction = .long then _ else _) = _
    rw [hcur]
    split <;> simp
  have hmove : (if r.flipCols.direction = .short then -(a.price - b.basis)
      else a.price - b.basis) = r.direction.side * (a.price - b.basis) := side_of_move hdir _
  have hreal : a.realizedClose r.flipCols =
      r.direction.side * (a.price - b.basis) * b.qty - a.feeUsdt / 2 + 0 := by
    have hb : r.flipCols.basisPrice.getD 0 = b.basis := by simp [TradeRow.flipCols, hk.basis]
    rw [FlipArgs.realizedClose, hcur, hb, hmove]
    ring
  have hcash : b.realized + a.realizedClose r.flipCols =
      finalCash es ((a.closeEvent r.flipCols).row a.flipTime seq) 0 := by
    rw [hreal]
    exact hk.final hq rfl rfl (by intro h; cases h)
  rw [← hcash]
  simp [TradeRow.set, FlipArgs.update, FlipArgs.cumulativePnl, TradeRow.flipCols, hk.realized]

end final

/-- The trade `tid` has ended with the event `e` and its row tells what was booked. -/
def Ledger.Settled (d : Ledger) (tid : String) (funding : ℚ) : Prop :=
  ∃ r es e, d.trade? tid = some r ∧ d.eventsOf tid = es ++ [e] ∧ e.eventType.Terminal ∧
    r.pnlUsdt = some (finalCash es e funding)

section ending

variable {env : Env} {d : Ledger} {r : TradeRow} {b : Book ℚ} (hd : d.Consistent)
  (hdir : r.direction.Perp) (hk : Keeps (d.eventsOf r.id) r b)

include hd hdir hk

/-- A flip books the cash of its close leg; its open leg belongs to the new trade. -/
theorem FlipArgs.settled (a : FlipArgs) {mid : Ledger} (hr : d.openTrade? a.tradeId = some r)
    (hmid : mid = d.amend a.tradeId (a.update r.flipCols) a.flipTime (a.closeEvent r.flipCols)) :
    (mid.spawn (a.childRow r.flipCols mid.nextSjId) a.flipTime
      (a.openEvent r.flipCols mid.nextSjId)).Settled a.tradeId 0 := by
  obtain ⟨-, hid, -⟩ := openTrade?_eq_some hr
  have hrec := hd.recorded_terminal a.flipTime hr (e := a.closeEvent r.flipCols) rfl (.inr rfl)
  have htrade : mid.trade? a.tradeId = some (r.set (a.update r.flipCols)) :=
    hmid ▸ trade?_amend hr
  have hev := eventsOf_amend_self (u := a.update r.flipCols) hr rfl hrec
  rw [← hmid, hid] at hev
  have hmm : mid.Minted := hmid ▸ hd.minted.amend (has_of_openTrade? hr)
  have hu : mid.Unused (a.childRow r.flipCols mid.nextSjId) := hmm.unused rfl (by rintro k ⟨⟩)
  have hne : (a.childRow r.flipCols mid.nextSjId).id ≠ a.tradeId := by
    intro h
    obtain ⟨hmem, hid'⟩ := trade?_eq_some htrade
    refine hu.id ?_
    rw [h, ← hid']
    exact List.mem_map_of_mem hmem
  have hev' : (mid.spawn (a.childRow r.flipCols mid.nextSjId) a.flipTime
      (a.openEvent r.flipCols mid.nextSjId)).eventsOf a.tradeId = d.eventsOf a.tradeId ++
        [(a.closeEvent r.flipCols).row a.flipTime (d.nextSeq a.tradeId)] :=
    (hu.eventsOf_spawn rfl a.tradeId).trans ((if_neg hne).trans hev)
  rw [hid] at hk
  refine ⟨_, _, _, ?_, hev', .inr rfl, a.final hdir hk⟩
  rw [trade?, hu.spawn_trades, List.find?_append, ← trade?, htrade, Option.some_or]

/-- A perp close books the cash of its event and its funding. -/
theorem PerpCloseArgs.settled (a : PerpCloseArgs) {p : PersistArgs} {c : CloseComponents}
    (hr : d.openTrade? a.tradeId = some r)
    (hp : perpCloseBooking env a r ((d.eventsOf a.tradeId).map (·.eventTime)) = .ok (p, c)) :
    (d.amend a.tradeId (p.update r.closeCols) p.exitTime (p.event r.closeCols)).Settled a.tradeId
      (Call.fundingUsdt env d (.closePerp a)) := by
  obtain ⟨-, hid, -⟩ := openTrade?_eq_some hr
  obtain ⟨entryDt, basis, qty, size, hbasis, hqty, -, hcomp, hargs⟩ := perpCloseBooking_spec hp
  have hpid : p.tradeId = a.tradeId := by rw [hargs]
  have hrec := hd.recorded_terminal p.exitTime hr (e := p.event r.closeCols) hpid (.inl rfl)
  have hev := eventsOf_amend_self (u := p.update r.closeCols) hr hpid hrec
  rw [hid] at hev hk
  refine ⟨_, _, _, trade?_amend hr, hev, .inl rfl, ?_⟩
  have hfunding : Call.fundingUsdt env d (.closePerp a) = c.fundingUsdt := by
    simp only [Call.fundingUsdt, hr, hp]
  rw [hfunding]
  refine p.final hdir hk ?_
  obtain rfl : b.basis = basis := by simpa [hk.basis] using hbasis
  obtain rfl : b.qty = qty := by simpa [hk.qty] using hqty
  have hpnl : p.pnlUsdt = c.pnlUsdt := by rw [hargs]
  have hfee : p.feeUsdt = c.costUsdt := by rw [hargs]
  rw [hpnl, hfee, computePerpClose_pnl hcomp]

end ending

/-- Booked P&L is cash flow: when a perp close or a flip has ended a trade that was opened in the
run, its P&L is the cash of all its events, less the fees of its scale-downs and of the ending, plus
the funding that the close books. -/
theorem pnl_eq_cash_flow {env : Env} {d : Ledger} {tid : String} {calls : List Call} {c : Call}
    {r : TradeRow} (hd : d.Consistent) (hnew : ¬ d.Has tid)
    (hok : OkRun ScaleArgs.Booking env tid calls d) (hc : c.Ends tid)
    (hr : (runAll env calls d).openTrade? tid = some r) (hdir : r.direction.Perp)
    (hclosed : (c.run env (runAll env calls d)).1.openTrade? tid = none) :
    (c.run env (runAll env calls d)).1.Settled tid
      (c.fundingUsdt env (runAll env calls d)) := by
  have hcons : (runAll env calls d).Consistent := consistent_runAll hd calls
  obtain ⟨hm, hid, ho⟩ := openTrade?_eq_some hr
  obtain ⟨b, hk⟩ := (whileOpen_of_new hnew).runAll booked_rule hd hok r hm hid ho hdir
  rcases c.run_cases env hcons.minted with he | he
  · rw [he, hr] at hclosed
    cases hclosed
  generalize (c.run env (runAll env calls d)).1 = d' at he ⊢
  cases he with
  | opened | scaled | leveraged => exact hc.elim
  | @flipped a r' mid hr' _ _ hmid =>
    obtain rfl : a.tradeId = tid := hc
    obtain rfl : r' = r := Option.some_inj.mp (hr'.symm.trans hr)
    exact a.settled hcons hdir hk hr hmid
  | @closed _ p r₁ hb hr₁ =>
    cases hb with
    | carry | persist => exact hc.elim
    | @perp a r' _ comps hr' hp =>
      obtain rfl : a.tradeId = tid := hc
      obtain rfl : r' = r := Option.some_inj.mp (hr'.symm.trans hr)
      obtain ⟨_, _, _, _, -, -, -, -, hargs⟩ := perpCloseBooking_spec hp
      have hpid : p.tradeId = a.tradeId := by rw [hargs]
      rw [hpid] at hr₁ ⊢
      obtain rfl : r₁ = r' := Option.some_inj.mp (hr₁.symm.trans hr)
      exact a.settled hcons hdir hk hr hp

/-- A long of 10 at 100, closed to nothing at 110, reopened with 5 at `back` and cut to 2 at 120. -/
def reopenRun (back : ℚ) : List Call := [
  .openTrade {
    variantId := "jplus", sleeveName := "ema_btc", asset := "BTC", direction := .long
    entryPrice := 100, allocationPct := 10, now := 0 },
  .scale { tradeId := "SJ-0001", newQty := 0, price := 110, now := 86_400_000_000 },
  .scale { tradeId := "SJ-0001", newQty := 5, price := back, now := 172_800_000_000 },
  .scale { tradeId := "SJ-0001", newQty := 2, price := 120, feeUsdt := 1, now := 259_200_000_000 }]

def closeAt130 : Call :=
  .closePerp { tradeId := "SJ-0001", exitPrice := 130, now := 345_600_000_000 }

def flipAt130 : Call :=
  .flip { tradeId := "SJ-0001", newDirection := .short, price := 130, now := 345_600_000_000 }

/-- A market in which funding has cost one percent. -/
def fundedEnv : Env := ⟨fun _ _ _ _ => 1, fun _ _ _ => .ok none⟩

theorem reopenRun_booking : OkRun ScaleArgs.Booking fundedEnv "SJ-0001" (reopenRun 90) empty := by
  refine okRun_booking .empty (fun ⟨_, h, _⟩ => nomatch h) ?_ (okRun_of_forall fun a ha row => ?_)
  · have he : (runAll fundedEnv (reopenRun 90) empty).entries.map
        (fun x => (x.entryPrice, x.qty)) = [(some 100, some 10)] := by decide +kernel
    intro x hx _
    have hx' := List.mem_map_of_mem (f := fun x : TradeEntry => (x.entryPrice, x.qty)) hx
    rw [he, List.mem_singleton, Prod.mk.injEq] at hx'
    exact ⟨⟨100, hx'.1, by norm_num⟩, ⟨10, hx'.2, by norm_num⟩⟩
  · simp only [reopenRun, List.mem_cons, Call.scale.injEq, List.not_mem_nil, or_false, reduceCtorEq,
      false_or] at ha
    obtain rfl | rfl | rfl := ha
    all_goals exact ⟨by norm_num, fun _ => by norm_num⟩

theorem pnl_eq_cash_flow_reopenRun :
    (closeAt130.run fundedEnv (runAll fundedEnv (reopenRun 90) empty)).1.Settled "SJ-0001"
      (closeAt130.fundingUsdt fundedEnv (runAll fundedEnv (reopenRun 90) empty)) := by
  have hr : ((runAll fundedEnv (reopenRun 90) empty).openTrade? "SJ-0001").map (·.direction) =
      some .long := by decide +kernel
  obtain ⟨r, hr, hdir⟩ := Option.map_eq_some_iff.mp hr
  refine pnl_eq_cash_flow .empty (fun ⟨_, h, _⟩ => nomatch h) reopenRun_booking rfl hr
    (.inl hdir) ?_
  exact Option.isNone_iff_eq_none.mp (by decide +kernel)

/-- Reopened at nothing, the average price is zero, and the cut to 2 at 120 realises nothing. -/
theorem zeroPrice_breaks_cash_flow :
    ((runAll quietEnv (reopenRun 0) empty).openTrade? "SJ-0001").map
      (fun r => (r.direction, r.entryPrice)) = some (.long, some 100) ∧
    (flipAt130.run quietEnv (runAll quietEnv (reopenRun 0) empty)).1.openTrade? "SJ-0001" = none ∧
    ¬ (flipAt130.run quietEnv (runAll quietEnv (reopenRun 0) empty)).1.Settled "SJ-0001"
      (flipAt130.fundingUsdt quietEnv (runAll quietEnv (reopenRun 0) empty)) := by
  refine ⟨by decide +kernel, Option.isNone_iff_eq_none.mp (by decide +kernel), ?_⟩
  rintro ⟨r, es, e, hr, hev, -, hpnl⟩
  have hbooked : ((flipAt130.run quietEnv (runAll quietEnv (reopenRun 0) empty)).1.trade?
      "SJ-0001").map (·.pnlUsdt) = some (some 360) := by decide +kernel
  have hcash : (fun es => (quantityCash es, scaleDownFees es, es.getLast?.map (·.feeUsdt)))
      ((flipAt130.run quietEnv (runAll quietEnv (reopenRun 0) empty)).1.eventsOf "SJ-0001") =
        (720, 1, some (some 0)) := by decide +kernel
  rw [hr, Option.map_some, Option.some_inj, hpnl, Option.some_inj] at hbooked
  simp only [hev, List.getLast?_append, List.getLast?_singleton, Option.some_or, Option.map_some,
    Prod.mk.injEq, Option.some_inj] at hcash
  rw [finalCash, hcash.1, hcash.2.1, hcash.2.2] at hbooked
  exact absurd hbooked (by decide +kernel)

end P300
