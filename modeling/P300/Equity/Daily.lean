import Mathlib.Algebra.Field.Rat
import Mathlib.Algebra.Order.Ring.Cast
import Mathlib.Data.Int.ConditionallyCompleteOrder
import Mathlib.Order.ConditionallyCompleteLattice.Basic
import P300.Equity.Market

/-!
# Daily equity

`_position` and `daily_equity` of `strategies/support/equity.py`. A window loads the trades that
were entered by its end, advances and marks their positions at its opening and at the end of each of
its days, and returns one row for each day.

All windows of one ledger read one curve: the capital and the worth of all positions at an instant.
The rows of a window are its differences over the days, so that adjacent windows concatenate.
-/

namespace P300

def dayUs : Int := 86_400_000_000

/-- `datetime.combine(date, time(), UTC)` of a date, which is its number of days since the epoch. -/
def midnight (date : Int) : Time := date * dayUs

/-! ## The position of a trade -/

section position

variable (trade : TradeRow) (entry : Time)

/-- A trade whose ledger does not begin with its opening gets one from its row. -/
def withOpen (adjustments : List EquityEvent) : Except EquityDataError (List EquityEvent) :=
  if adjustments.head?.map (·.eventType) = some .open_ then .ok adjustments
  else do
    let qty ← number trade.qty s!"{trade.id} entry quantity" true
    return {
      eventType := .open_
      dt := entry
      qtyAfter := some qty
      price := trade.entryPrice
      feeUsdt := some 0
      sizeUsdtAfter := trade.sizeUsdt
      realizedPnlDeltaUsdt := none } :: adjustments

/-- A closed trade whose ledger has no end gets one that books what its events have not. -/
def withClose (adjustments : List EquityEvent) : Except EquityDataError (List EquityEvent) :=
  if trade.status = .closed ∧ ∀ a ∈ adjustments, ¬ a.eventType.Terminal then
    match trade.actualExitTime with
    | none => .error (.missingExit trade.id)
    | some exit => do
      let prior := (adjustments.map fun a => pyOr a.realizedPnlDeltaUsdt 0).sum
      let pnl ← number trade.pnlUsdt s!"{trade.id} final P&L"
      return adjustments ++ [{
        eventType := .close
        dt := exit
        qtyAfter := some 0
        price := none
        feeUsdt := some 0
        sizeUsdtAfter := some 0
        realizedPnlDeltaUsdt := some (pnl - prior) }]
  else .ok adjustments

/-- The check of the events' order. -/
def inOrder (tid : String) (previous : Time) : List EquityEvent → Except EquityDataError Unit
  | [] => .ok ()
  | event :: rest =>
    if event.dt < previous then .error (.outOfOrder tid) else inOrder tid event.dt rest

/-- `_position` -/
def position (adjustments : List EquityEvent) : Except EquityDataError Position :=
  match trade.actualEntryTime with
  -- `daily_equity` has refused such a trade before
  | none => .error (.invalidEntry trade.id)
  | some entry =>
    match trade.direction with
    | .other _ => .error (.unsupportedDirection trade.id)
    | _ => do
      let events ← withClose trade (← withOpen trade entry adjustments)
      inOrder trade.id entry events
      return { trade := trade, events := events }

end position

/-! ## The rows -/

/-- A row of the result. -/
structure DailyRow where
  date : Int
  equityUsdt : ℚ
  openingEquityUsdt : ℚ
  dailyPnl : ℚ
  returnPct : ℚ
  navReturnPct : Option ℚ
  pnl_eq : dailyPnl = equityUsdt - openingEquityUsdt
  deriving DecidableEq

section rows

variable (market : MarketData) (capitalUsdt : ℚ)

/-- `capital_usdt + sum(p.value(cutoff, market) for p in positions)`, and the advanced positions. -/
def equityAt (positions : List Position) (cutoff : Time) :
    Except EquityDataError (ℚ × List Position) := do
  let (total, positions) ← Meter.total (Position.value market) positions cutoff
  return (capitalUsdt + total, positions)

def dailyRow (current : Time) (previous value : ℚ) : DailyRow :=
  let pnl := value - previous
  { date := utcDate current
    equityUsdt := value
    openingEquityUsdt := previous
    dailyPnl := pnl
    returnPct := pnl / capitalUsdt * 100
    navReturnPct := if previous > 0 then some (pnl / previous * 100) else none
    pnl_eq := rfl }

/-- The loop of `daily_equity`, which goes round `days` times. -/
def dailyRows (limit : Time) : Nat → Time → ℚ → List Position →
    Except EquityDataError (List DailyRow)
  | 0, _, _, _ => .ok []
  | days + 1, current, previous, positions => do
    let (value, positions) ← equityAt market capitalUsdt positions (min (current + dayUs) limit)
    let rows ← dailyRows limit days (current + dayUs) value positions
    return dailyRow capitalUsdt current previous value :: rows

end rows

namespace Ledger

/-- A trade of the variant that is or was open. -/
def Entered (variantId : String) (r : TradeRow) : Prop :=
  r.strategyVariant = variantId ∧ (r.status = .open_ ∨ r.status = .closed)

instance (variantId : String) (r : TradeRow) : Decidable (Entered variantId r) :=
  inferInstanceAs (Decidable (_ ∧ _))

/-- `julianday(actual_entry_time) <= julianday(?)` -/
def enteredBy (julianday : Time → ℚ) (limit : Time) (r : TradeRow) : Bool :=
  r.actualEntryTime.any fun entry => julianday entry ≤ julianday limit

/-- The positions of the variant's trades that were entered by the limit. -/
def positions (julianday : Time → ℚ) (variantId : String) (limit : Time) (d : Ledger) :
    Except EquityDataError (List Position) :=
  match d.trades.find? fun r => Entered variantId r ∧ r.actualEntryTime = none with
  | some invalid => .error (.invalidEntry invalid.id)
  | none =>
    ((d.trades.filter fun r => Entered variantId r).filter (enteredBy julianday limit)).mapM
      fun trade => position trade ((d.getAdjustments trade.id).map (·.toEvent))

end Ledger

section daily

variable (julianday : Time → ℚ) (d : Ledger) (market : MarketData) (variantId : String)
  (capitalUsdt : ℚ) (asOf : Option Time) (now : Time)

/-- `daily_equity` of the dates from `start` to `stop`. SQLite's `julianday` is a parameter, `now`
is the clock. -/
def dailyEquity (start stop : Int) : Except EquityDataError (List DailyRow) := do
  let _ ← number (some capitalUsdt) "capital" true
  let startDt := midnight start
  let endDt := midnight (stop + 1)
  let limit := min endDt (asOf.getD now + 1)
  if limit ≤ startDt then return []
  let positions ← d.positions julianday variantId limit
  let (previous, positions) ← equityAt market capitalUsdt positions startDt
  -- the number of rounds of the loop `while current < limit: current += 1 day`
  let days := ((limit - startDt + dayUs - 1) / dayUs).toNat
  dailyRows market capitalUsdt limit days startDt previous positions

end daily

/-! ## Which trades a window loads -/

theorem inOrder_ok {tid : String} {previous : Time} {events : List EquityEvent}
    (h : inOrder tid previous events = .ok ()) : ∀ ev ∈ events, previous ≤ ev.dt := by
  induction events generalizing previous with
  | nil => exact fun _ hm => nomatch hm
  | cons event rest ih =>
    rw [inOrder] at h
    split at h
    · cases h
    · next hlt =>
      have hle : previous ≤ event.dt := not_lt.mp hlt
      intro ev hev
      rcases List.mem_cons.mp hev with rfl | hev
      · exact hle
      · exact hle.trans (ih h ev hev)

/-- A position starts with nothing, and no event of it comes before its entry. -/
theorem position_ok {trade : TradeRow} {adjustments : List EquityEvent} {p : Position}
    (h : position trade adjustments = .ok p) : p.trade = trade ∧ p.toHolding = {} ∧
      ∃ entry, trade.actualEntryTime = some entry ∧ ∀ ev ∈ p.events, entry ≤ ev.dt := by
  unfold position at h
  split at h
  · cases h
  · next entry hentry =>
    split at h
    · cases h
    · obtain ⟨opened, -, h⟩ := of_bind_ok h
      obtain ⟨events, -, h⟩ := of_bind_ok h
      obtain ⟨⟨⟩, horder, h⟩ := of_bind_ok h
      cases h
      exact ⟨rfl, rfl, entry, hentry, inOrder_ok horder⟩

section loaded

variable {julianday : Time → ℚ} {d : Ledger} {variantId : String} {limit limit' : Time}
  {ps : List Position}

/-- The positions of a smaller window are those of the larger one that were entered by its end. -/
theorem Ledger.positions_filter (hj : Monotone julianday) (hle : limit' ≤ limit)
    (h : d.positions julianday variantId limit = .ok ps) :
    d.positions julianday variantId limit' =
      .ok (ps.filter fun p => enteredBy julianday limit' p.trade) := by
  unfold positions at h ⊢
  split at h
  · cases h
  · have hsub : ∀ r, enteredBy julianday limit' r = true → enteredBy julianday limit r = true := by
      intro r hr
      obtain ⟨entry, hentry, hle'⟩ := (Option.any_eq_true ..).mp hr
      exact (Option.any_eq_true ..).mpr
        ⟨entry, hentry, decide_eq_true ((of_decide_eq_true hle').trans (hj hle))⟩
    have hfilter := Meter.mapM_filter (p := enteredBy julianday limit')
      (q := fun p => enteredBy julianday limit' p.trade)
      (fun trade _ p hp => by rw [(position_ok hp).1]) h
    rw [List.filter_filter] at hfilter
    have hboth : (fun r => enteredBy julianday limit' r && enteredBy julianday limit r) =
        enteredBy julianday limit' := by
      funext r
      cases hr : enteredBy julianday limit' r with
      | false => rfl
      | true => exact hsub r hr
    rw [hboth] at hfilter
    exact hfilter

/-- A trade that was not entered by an instant is worth nothing up to it. -/
theorem Ledger.value_unentered (hj : Monotone julianday) (market : MarketData)
    (h : d.positions julianday variantId limit = .ok ps) {p : Position} (hp : p ∈ ps)
    (hout : enteredBy julianday limit' p.trade = false) {t : Time} (ht : t ≤ limit') :
    p.value market t = .ok (0, p) := by
  unfold positions at h
  split at h
  · cases h
  · obtain ⟨trade, -, hpos⟩ := Meter.mem_of_mapM h hp
    obtain ⟨rfl, hzero, entry, hentry, hev⟩ := position_ok hpos
    refine Position.value_before market hzero fun ev hmem => ht.trans (le_trans ?_ (hev ev hmem))
    by_contra hlt
    have hin : enteredBy julianday limit' p.trade = true := (Option.any_eq_true ..).mpr
      ⟨entry, hentry, decide_eq_true (hj (not_le.mp hlt).le)⟩
    rw [hout] at hin
    cases hin

end loaded

/-! ## The curve -/

section curve

variable {market : MarketData} {capitalUsdt : ℚ}

theorem equityAt_resumes : Meter.Resumes (equityAt market capitalUsdt) := by
  intro ps t v ps' h t' hle
  obtain ⟨⟨total, ps₁⟩, htotal, h⟩ := of_bind_ok h
  cases h
  unfold equityAt
  rw [(Position.value_resumes market).total htotal hle]

/-- The equity at an instant. -/
def curve (market : MarketData) (capitalUsdt : ℚ) (ps : List Position) (t : Time) :
    Except EquityDataError ℚ :=
  Meter.shown (equityAt market capitalUsdt) ps t

theorem add_days_succ (current : Time) (days : Nat) :
    current + (days + 1 : Nat) * dayUs = current + dayUs + days * dayUs := by
  rw [Nat.cast_succ, add_mul, one_mul, add_comm (days * dayUs), add_assoc]

theorem le_add_days (current : Time) (days : Nat) : current ≤ current + days * dayUs :=
  Int.le_add_of_nonneg_right (Int.mul_nonneg (Int.natCast_nonneg days) (by decide))

/-- The rows of whole days as the differences of a curve. -/
def curveRows (capitalUsdt : ℚ) (f : Time → Except EquityDataError ℚ) :
    Nat → Time → Except EquityDataError (List DailyRow)
  | 0, _ => .ok []
  | days + 1, current => do
    let previous ← f current
    let value ← f (current + dayUs)
    let rows ← curveRows capitalUsdt f days (current + dayUs)
    return dailyRow capitalUsdt current previous value :: rows

/-- The loop reads its rows off the curve of the positions that it started with. -/
theorem dailyRows_eq {limit current : Time} {days : Nat} {ps ps' : List Position} {previous : ℚ}
    (hlimit : current + days * dayUs ≤ limit)
    (h : equityAt market capitalUsdt ps current = .ok (previous, ps')) :
    dailyRows market capitalUsdt limit days current previous ps' =
      curveRows capitalUsdt (curve market capitalUsdt ps) days current := by
  induction days generalizing current previous ps' with
  | zero => rfl
  | succ days ih =>
    rw [add_days_succ] at hlimit
    have hmin : min (current + dayUs) limit = current + dayUs :=
      min_eq_left ((le_add_days ..).trans hlimit)
    have hday : current ≤ current + dayUs := Int.le_add_of_nonneg_right (by decide)
    have hprev : curve market capitalUsdt ps current = .ok previous :=
      Meter.shown_ok.mpr ⟨ps', h⟩
    rw [dailyRows, curveRows, hmin, equityAt_resumes h hday, hprev, ok_bind]
    cases hread : equityAt market capitalUsdt ps (current + dayUs) with
    | error e =>
      rw [curve, Meter.shown, hread]
      rfl
    | ok r =>
      obtain ⟨value, ps₁⟩ := r
      have hvalue : curve market capitalUsdt ps (current + dayUs) = .ok value :=
        Meter.shown_ok.mpr ⟨ps₁, hread⟩
      rw [hvalue, ok_bind, ok_bind, ← ih hlimit hread]

theorem curveRows_add {f : Time → Except EquityDataError ℚ} {m n : Nat} {current : Time}
    {rows : List DailyRow} (h : curveRows capitalUsdt f (m + n) current = .ok rows) :
    ∃ rows₁ rows₂, curveRows capitalUsdt f m current = .ok rows₁ ∧
      curveRows capitalUsdt f n (current + m * dayUs) = .ok rows₂ ∧ rows = rows₁ ++ rows₂ := by
  induction m generalizing current rows with
  | zero =>
    rw [Nat.zero_add] at h
    rw [Nat.cast_zero, zero_mul, add_zero]
    exact ⟨[], rows, rfl, h, rfl⟩
  | succ m ih =>
    rw [Nat.succ_add] at h
    obtain ⟨previous, hprev, h⟩ := of_bind_ok h
    obtain ⟨value, hval, h⟩ := of_bind_ok h
    obtain ⟨rest, hrest, h⟩ := of_bind_ok h
    cases h
    obtain ⟨rows₁, rows₂, h₁, h₂, rfl⟩ := ih hrest
    rw [add_days_succ]
    refine ⟨dailyRow capitalUsdt current previous value :: rows₁, rows₂, ?_, h₂, rfl⟩
    rw [curveRows, hprev, ok_bind, hval, ok_bind, h₁, ok_bind]
    rfl

/-- Curves that agree up to the end of a window have the same rows in it. -/
theorem curveRows_mono {f g : Time → Except EquityDataError ℚ} {days : Nat} {current limit : Time}
    {rows : List DailyRow} (hlimit : current + days * dayUs ≤ limit)
    (hfg : ∀ t ≤ limit, ∀ v, f t = .ok v → g t = .ok v)
    (h : curveRows capitalUsdt f days current = .ok rows) :
    curveRows capitalUsdt g days current = .ok rows := by
  induction days generalizing current rows with
  | zero => exact h
  | succ days ih =>
    obtain ⟨previous, hprev, h⟩ := of_bind_ok h
    obtain ⟨value, hval, h⟩ := of_bind_ok h
    obtain ⟨rest, hrest, h⟩ := of_bind_ok h
    cases h
    have hstart : current ≤ limit := (le_add_days ..).trans hlimit
    rw [add_days_succ] at hlimit
    have hend : current + dayUs ≤ limit := (le_add_days ..).trans hlimit
    rw [curveRows, hfg current hstart previous hprev, ok_bind, hfg _ hend value hval, ok_bind,
      ih hlimit hrest, ok_bind]
    rfl

end curve

/-! ## Adjacent windows -/

theorem dailyRows_chain {market : MarketData} {capitalUsdt previous : ℚ} {limit current : Time}
    {days : Nat} {ps : List Position} {rows : List DailyRow}
    (h : dailyRows market capitalUsdt limit days current previous ps = .ok rows) :
    (rows.IsChain fun r r' => r.equityUsdt = r'.openingEquityUsdt) ∧
      ∀ r ∈ rows.head?, r.openingEquityUsdt = previous := by
  induction days generalizing current previous ps rows with
  | zero =>
    cases h
    exact ⟨.nil, fun _ hr => nomatch hr⟩
  | succ days ih =>
    obtain ⟨⟨value, ps₁⟩, -, h⟩ := of_bind_ok h
    obtain ⟨rest, hrest, h⟩ := of_bind_ok h
    cases h
    obtain ⟨hchain, hhead⟩ := ih hrest
    refine ⟨List.isChain_cons.mpr ⟨fun r hr => (hhead r hr).symm, hchain⟩, ?_⟩
    rintro _ ⟨⟩
    rfl

section windows

variable {julianday : Time → ℚ} {d : Ledger} {market : MarketData} {variantId : String}
  {capitalUsdt : ℚ} {asOf : Option Time} {now : Time} {a b c : Int} {rows : List DailyRow}

theorem midnight_add (date : Int) (days : Nat) :
    midnight date + days * dayUs = midnight (date + days) := (add_mul ..).symm

/-- A window of whole days is read off the curve of the trades entered by its end. -/
theorem dailyEquity_ok (hac : a ≤ c) (has : midnight (c + 1) ≤ asOf.getD now + 1) :
    dailyEquity julianday d market variantId capitalUsdt asOf now a c = .ok rows ↔
      0 < capitalUsdt ∧ ∃ ps, d.positions julianday variantId (midnight (c + 1)) = .ok ps ∧
        curveRows capitalUsdt (curve market capitalUsdt ps) (c + 1 - a).toNat (midnight a) =
          .ok rows := by
  obtain ⟨days, hdays⟩ : ∃ days, (c + 1 - a).toNat = days + 1 :=
    Nat.exists_eq_succ_of_ne_zero (by omega)
  have hrounds : ((midnight (c + 1) - midnight a + dayUs - 1) / dayUs).toNat = days + 1 := by
    rw [← hdays]
    simp only [midnight, dayUs]
    omega
  have hend : midnight a + (days + 1 : Nat) * dayUs = midnight (c + 1) := by
    rw [midnight_add]
    congr 1
    omega
  have hlt : ¬ midnight (c + 1) ≤ midnight a := by
    rw [← hend, add_days_succ]
    exact not_le.mpr (lt_of_lt_of_le (Int.lt_add_of_pos_right _ (by decide)) (le_add_days ..))
  unfold dailyEquity
  simp only [min_eq_left has, if_neg hlt, hrounds, hdays]
  constructor
  · intro h
    obtain ⟨u, hcap, h⟩ := of_bind_ok h
    obtain ⟨ps, hps, h⟩ := of_bind_ok h
    obtain ⟨⟨previous, ps'⟩, hopen, h⟩ := of_bind_ok h
    exact ⟨(number_positive.mp hcap).1, ps, hps, (dailyRows_eq hend.le hopen).symm.trans h⟩
  · rintro ⟨hcap, ps, hps, h⟩
    obtain ⟨previous, hprev, -⟩ := of_bind_ok h
    obtain ⟨ps', hopen⟩ := Meter.shown_ok.mp hprev
    rw [number_positive.mpr ⟨hcap, rfl⟩, ok_bind, hps, ok_bind, hopen, ok_bind,
      dailyRows_eq hend.le hopen]
    exact h

/-- Up to the end of a smaller window, its trades have the curve of the larger window's trades. -/
theorem curve_filter (hj : Monotone julianday) {limit limit' : Time} {ps : List Position}
    (h : d.positions julianday variantId limit = .ok ps) {t : Time} (ht : t ≤ limit') {v : ℚ}
    (hv : curve market capitalUsdt ps t = .ok v) :
    curve market capitalUsdt (ps.filter fun p => Ledger.enteredBy julianday limit' p.trade) t =
      .ok v := by
  obtain ⟨ps', hread⟩ := Meter.shown_ok.mp hv
  obtain ⟨⟨total, ps₁⟩, htotal, hread⟩ := of_bind_ok hread
  cases hread
  obtain ⟨ps₂, hfilter⟩ := Meter.total_filter
    (p := fun p => Ledger.enteredBy julianday limit' p.trade)
    (fun p hp hout => ⟨p, d.value_unentered hj market h hp hout ht⟩) htotal
  refine Meter.shown_ok.mpr ⟨ps₂, ?_⟩
  rw [equityAt, hfilter]
  rfl

end windows

/-- Adjacent windows concatenate: the rows from `a` to `c` are those from `a` to `b` and those from
`b + 1` to `c`. In every window each row opens with the equity of the row before it, so the daily
P&Ls add up to the last equity less the first opening equity. -/
theorem daily_equity_concat (julianday : Time → ℚ) (hj : Monotone julianday) (d : Ledger)
    (market : MarketData) (variantId : String) (capitalUsdt : ℚ) (asOf : Option Time) (now : Time) :
    (∀ a b c rows, a ≤ b → b < c → midnight (c + 1) ≤ asOf.getD now + 1 →
      dailyEquity julianday d market variantId capitalUsdt asOf now a c = .ok rows →
      ∃ rows₁ rows₂,
        dailyEquity julianday d market variantId capitalUsdt asOf now a b = .ok rows₁ ∧
        dailyEquity julianday d market variantId capitalUsdt asOf now (b + 1) c = .ok rows₂ ∧
        rows = rows₁ ++ rows₂) ∧
    ∀ a c rows, dailyEquity julianday d market variantId capitalUsdt asOf now a c = .ok rows →
      (rows.IsChain fun r r' => r.equityUsdt = r'.openingEquityUsdt) ∧
      ∀ first ∈ rows.head?, ∀ last ∈ rows.getLast?,
        (rows.map (·.dailyPnl)).sum = last.equityUsdt - first.openingEquityUsdt := by
  constructor
  · intro a b c rows hab hbc has h
    obtain ⟨hcap, ps, hps, h⟩ := (dailyEquity_ok (hab.trans hbc.le) has).mp h
    have hsplit : (c + 1 - a).toNat = (b + 1 - a).toNat + (c + 1 - (b + 1)).toNat := by omega
    have hmid : midnight a + ((b + 1 - a).toNat : Int) * dayUs = midnight (b + 1) := by
      rw [midnight_add]
      congr 1
      omega
    have hle : midnight (b + 1) ≤ midnight (c + 1) :=
      Int.mul_le_mul_of_nonneg_right (by omega) (by decide)
    rw [hsplit] at h
    obtain ⟨rows₁, rows₂, h₁, h₂, rfl⟩ := curveRows_add h
    rw [hmid] at h₂
    refine ⟨rows₁, rows₂, (dailyEquity_ok hab (hle.trans has)).mpr
      ⟨hcap, _, Ledger.positions_filter hj hle hps, ?_⟩,
      (dailyEquity_ok (Int.add_one_le_of_lt hbc) has).mpr ⟨hcap, ps, hps, h₂⟩, rfl⟩
    exact curveRows_mono hmid.le (fun t ht v hv => curve_filter hj hps ht hv) h₁
  · intro a c rows h
    have hchain : rows.IsChain fun r r' => r.equityUsdt = r'.openingEquityUsdt := by
      obtain ⟨u, -, h⟩ := of_bind_ok h
      dsimp only at h
      split at h
      · cases h
        exact .nil
      · obtain ⟨ps, -, h⟩ := of_bind_ok h
        obtain ⟨⟨previous, ps'⟩, -, h⟩ := of_bind_ok h
        exact (dailyRows_chain h).1
    refine ⟨hchain, fun first hfirst last hlast => ?_⟩
    have hpnl : rows.map (·.dailyPnl) = rows.map fun r => r.equityUsdt - r.openingEquityUsdt :=
      List.map_congr_left fun r _ => r.pnl_eq
    rw [hpnl]
    exact Meter.sum_windows hchain first hfirst last hlast

/-- A long trade of `V` in BTC. -/
def longTrade (id strategy : String) (status : Status) (entry : Time) (exit : Option Time)
    (qty entryPrice : ℚ) (pnl : Option ℚ) : TradeRow where
  id := id
  series := "SJ"
  asset := "BTC"
  direction := .long
  strategy := strategy
  regime := ""
  allocationPct := 10
  leverage := some 1
  entryTime := entry
  exitTime := none
  actualEntryTime := some entry
  entryPrice := some entryPrice
  sizeUsdt := some (qty * entryPrice)
  qty := some qty
  strategyVariant := "V"
  createdAt := entry
  parentPositionId := none
  uniqueKey := none
  status := status
  actualExitTime := exit
  exitPrice := none
  pnlUsdt := pnl
  pnlPct := none
  resolution := none
  currentQty := none
  currentLeverage := none
  currentSizeUsdt := none
  realizedPnlUsdt := none
  avgEntryPrice := none

/-- `T` from the first day to noon of the fourth, and `U`, open since the third day. -/
def twoTrades : Ledger where
  trades := [
    longTrade "T" "PDO_RETOUCH" .closed 36_000_000_000 (some 302_400_000_000) 1 100 (some 12),
    longTrade "U" "ADX" .open_ 208_800_000_000 none 2 110 none]
  adjustments := []
  ids_nodup := by decide
  keys_nodup := by decide
  seqs_nodup := by decide
  days_nodup := by decide

/-- The last minute of each day, and the settlements since the third day. -/
def fourDays : MarketData where
  simulated := true
  btc1m := {
    rows := [⟨86_340_000, none, none, none, some 80⟩, ⟨172_740_000, none, none, none, some 110⟩,
      ⟨259_140_000, none, none, none, some 112⟩, ⟨345_540_000, none, none, none, some 115⟩]
    sorted := by decide }
  eth1m := .empty
  fundingRate :=
    [(230_400, some (1 / 1000)), (259_200, some (1 / 1000)), (288_000, some (1 / 1000)),
    (316_800, some (1 / 1000))]
  fundingRateEth := []

/-- `julianday`, which rounds to milliseconds. -/
def sqliteJulianday (t : Time) : ℚ := 4_881_175 / 2 + ((t + 500) / 1000 : Int) / 86_400_000

theorem sqliteJulianday_mono : Monotone sqliteJulianday := by
  intro t t' hle
  have hms : (t + 500) / 1000 ≤ (t' + 500) / 1000 :=
    Int.ediv_le_ediv (by decide) (Int.add_le_add_right hle 500)
  exact add_le_add_right (div_le_div_of_nonneg_right (Int.cast_le.mpr hms) (by decide +kernel)) _

/-- The window of the first two days does not load `U`. -/
theorem daily_equity_concat_twoTrades : ∃ rows₁ rows₂,
    dailyEquity sqliteJulianday twoTrades fourDays "V" 1000 none 400_000_000_000 0 1 = .ok rows₁ ∧
    dailyEquity sqliteJulianday twoTrades fourDays "V" 1000 none 400_000_000_000 2 3 = .ok rows₂ ∧
    (rows₁ ++ rows₂).map (·.dailyPnl) = [-20, 30, 289 / 50, 267 / 50] := by
  have hrun : (dailyEquity sqliteJulianday twoTrades fourDays "V" 1000 none 400_000_000_000 0
      3).toOption.map (List.map (·.dailyPnl)) = some [-20, 30, 289 / 50, 267 / 50] := by
    decide +kernel
  cases h : dailyEquity sqliteJulianday twoTrades fourDays "V" 1000 none 400_000_000_000 0 3 with
  | error e =>
    rw [h] at hrun
    cases hrun
  | ok rows =>
    rw [h] at hrun
    obtain ⟨rows₁, rows₂, h₁, h₂, rfl⟩ := (daily_equity_concat sqliteJulianday sqliteJulianday_mono
      twoTrades fourDays "V" 1000 none 400_000_000_000).1 0 1 3 rows (by decide) (by decide)
      (by decide) h
    exact ⟨rows₁, rows₂, h₁, h₂, Option.some.inj hrun⟩

end P300
