import P300.Ledger.Trades

/-!
# Positions rebuilt from the adjustment ledger

`_number`, `_Position` and `_Position.advance` of `strategies/support/equity.py`: a reader of the
ledger that rebuilds quantity, cost basis and realised P&L of a trade from its events alone.
-/

namespace P300

/-- `equity.EquityDataError`, one constructor for each message; a value that Python prints in the
message is kept as it is. -/
inductive EquityDataError
  /-- `Missing {label}` -/
  | missing (label : String)
  /-- `Invalid {label}: {value!r}` -/
  | invalid (label : String) (value : ℚ)
  /-- `Negative quantity for {trade_id}` -/
  | negativeQuantity (tid : String)
  /-- `Invalid {kind} quantity for {trade_id}` -/
  | invalidQuantity (kind tid : String)
  /-- `Leverage event changes quantity for {trade_id}` -/
  | leverageChangesQuantity (tid : String)
  /-- `Unknown adjustment {kind!r}` -/
  | unknownAdjustment (kind : String)
  /-- `Unsupported direction for {trade_id}` -/
  | unsupportedDirection (tid : String)
  /-- `Missing exit timestamp for {trade_id}` -/
  | missingExit (tid : String)
  /-- `Out-of-order adjustments for {trade_id}` -/
  | outOfOrder (tid : String)
  /-- `Missing/invalid entry timestamp for {trade_id}` -/
  | invalidEntry (tid : String)
  /-- `No historical mark source for {asset}` -/
  | noMarkSource (asset : String)
  /-- `Missing completed {asset} mark at {cutoff} (max age 10m)` -/
  | missingMark (asset : String) (cutoff : Time)
  /-- `Unfinalized latest {asset} mark at {cutoff}; waiting for successor row` -/
  | unfinalizedMark (asset : String) (cutoff : Time)
  /-- `No funding source for {asset}` -/
  | noFundingSource (asset : String)
  /-- `Missing {asset} funding settlement at {ts}` -/
  | missingFunding (asset : String) (ts : Int)
  deriving DecidableEq, Repr

/-- `_number` -/
def number (value : Option ℚ) (label : String) (positive : Bool := false) :
    Except EquityDataError ℚ :=
  match value with
  | none => .error (.missing label)
  | some v => if positive = true ∧ v ≤ 0 then .error (.invalid label v) else .ok v

theorem number_positive {v u : ℚ} {label : String} :
    number (some v) label true = .ok u ↔ 0 < v ∧ u = v := by
  simp only [number, true_and]
  split
  · next hle => exact ⟨fun h => (nomatch h), fun h => absurd hle h.1.not_ge⟩
  · next hpos => exact ⟨fun h => ⟨not_le.mp hpos, (Except.ok.inj h).symm⟩,
      fun h => congrArg _ h.2.symm⟩

/-- The text of `trade_adjustments.event_type`. -/
def EventType.text : EventType → String
  | .open_ => "OPEN"
  | .scaleUp => "SCALE_UP"
  | .scaleDown => "SCALE_DOWN"
  | .leverageAdjust => "LEVERAGE_ADJUST"
  | .flip => "FLIP"
  | .close => "CLOSE"
  | .other text => text

/-- What the reader uses of an event; a key that is missing from its dictionary is `none`. -/
structure EquityEvent where
  eventType : EventType
  dt : Time
  qtyAfter : Option ℚ
  price : Option ℚ
  feeUsdt : Option ℚ
  sizeUsdtAfter : Option ℚ
  realizedPnlDeltaUsdt : Option ℚ
  deriving DecidableEq, Repr

def Adjustment.toEvent (a : Adjustment) : EquityEvent :=
  ⟨a.eventType, a.eventTime, a.qtyAfter, a.price, a.feeUsdt, a.sizeUsdtAfter,
    a.realizedPnlDeltaUsdt⟩

/-- The fields of `_Position` that its events move. -/
structure Holding where
  qty : ℚ := 0
  basis : ℚ := 0
  realized : ℚ := 0
  separateFees : ℚ := 0
  /-- Funding notional segments: entry/resize timestamp and new notional. -/
  segments : List (Time × ℚ) := []
  deriving DecidableEq, Repr

/-- `_Position` -/
structure Position extends Holding where
  trade : TradeRow
  events : List EquityEvent
  index : Nat := 0
  deriving DecidableEq, Repr

/-- The quantity, basis, realised P&L and fees after an event that leaves the quantity `after`. -/
def Holding.book (h : Holding) (tid : String) (event : EquityEvent) (after fee : ℚ) :
    Except EquityDataError Holding :=
  match event.eventType with
  | .open_ | .scaleUp => do
    let price ← number event.price "execution price" true
    if after ≤ h.qty then .error (.invalidQuantity event.eventType.text tid)
    else .ok { h with
      basis := (h.qty * h.basis + (after - h.qty) * price) / after
      separateFees := h.separateFees + fee }
  | .scaleDown | .close | .flip => do
    let delta ← number event.realizedPnlDeltaUsdt "realized event P&L"
    if after > h.qty ∨ event.eventType.Terminal ∧ after ≠ 0 then
      .error (.invalidQuantity event.eventType.text tid)
    else .ok { h with realized := h.realized + delta }
  | .leverageAdjust =>
    if after ≠ h.qty then .error (.leverageChangesQuantity tid)
    else .ok { h with separateFees := h.separateFees + fee }
  | .other text => .error (.unknownAdjustment text)

/-- One round of the loop of `_Position.advance`. -/
def Holding.apply (h : Holding) (tid : String) (event : EquityEvent) :
    Except EquityDataError Holding := do
  let after ← number event.qtyAfter s!"{tid} {event.eventType.text} quantity"
  if after < 0 then .error (.negativeQuantity tid)
  else do
    let fee ← number (some (pyOr event.feeUsdt 0)) "event fee"
    let h ← h.book tid event after fee
    let notional ← if after ≠ 0 then number event.sizeUsdtAfter "event notional" true else .ok 0
    return { h with qty := after, segments := h.segments ++ [(event.dt, notional)] }

namespace Holding

variable {h h' : Holding} {tid : String} {ev : EquityEvent} {after price delta : ℚ}

/-- The events in order, from `h` on. -/
def applyAll (tid : String) : List EquityEvent → Holding → Except EquityDataError Holding
  | [], h => .ok h
  | ev :: evs, h => do applyAll tid evs (← h.apply tid ev)

theorem applyAll_append {evs : List EquityEvent} (he : applyAll tid evs h = .ok h') :
    applyAll tid (evs ++ [ev]) h = h'.apply tid ev := by
  induction evs generalizing h with
  | nil =>
    cases he
    rw [List.nil_append, applyAll]
    cases h'.apply tid ev <;> rfl
  | cons b evs ih =>
    rw [applyAll] at he
    rw [List.cons_append, applyAll]
    cases hb : h.apply tid b with
    | error err => rw [hb] at he; cases he
    | ok h₁ => rw [hb] at he; exact ih he

/-- The notional that an event leaves is checked unless the position is closed. -/
theorem apply_of_book {fee : ℚ} (hq : ev.qtyAfter = some after) (h0 : 0 ≤ after)
    (hs : after ≠ 0 → ∃ size, ev.sizeUsdtAfter = some size ∧ 0 < size)
    (hf : fee = pyOr ev.feeUsdt 0) (hb : h.book tid ev after fee = .ok h') :
    ∃ notional, h.apply tid ev =
      .ok { h' with qty := after, segments := h'.segments ++ [(ev.dt, notional)] } := by
  unfold apply
  simp only [hq, number, Bool.false_eq_true, false_and, if_false, ok_bind, if_neg (not_lt.mpr h0),
    ← hf, hb]
  by_cases ha : after = 0
  · exact ⟨0, by simp only [ha, ne_eq, not_true, if_false]; rfl⟩
  · obtain ⟨size, hsize, hpos⟩ := hs ha
    exact ⟨size, by simp [ha, hsize, hpos.not_ge]⟩

/-- `OPEN` and `SCALE_UP` move the basis to the weighted average. -/
theorem apply_increase (h : Holding) (tid : String) (ev : EquityEvent)
    (hk : ev.eventType = .open_ ∨ ev.eventType = .scaleUp)
    (hq : ev.qtyAfter = some after) (h0 : 0 ≤ h.qty) (hlt : h.qty < after)
    (hp : ev.price = some price) (hp0 : 0 < price)
    (hs : ∃ size, ev.sizeUsdtAfter = some size ∧ 0 < size) :
    ∃ h', h.apply tid ev = .ok h' ∧ h'.qty = after ∧
      h'.basis = (h.qty * h.basis + (after - h.qty) * price) / after ∧
      h'.realized = h.realized := by
  have hb : h.book tid ev after (pyOr ev.feeUsdt 0) = .ok { h with
      basis := (h.qty * h.basis + (after - h.qty) * price) / after
      separateFees := h.separateFees + pyOr ev.feeUsdt 0 } := by
    unfold book
    rcases hk with hk | hk <;>
      simp [hk, hp, number, hp0.not_ge, hlt.not_ge]
  obtain ⟨notional, he⟩ := apply_of_book hq (h0.trans hlt.le) (fun _ => hs) rfl hb
  exact ⟨_, he, rfl, rfl, rfl⟩

/-- `SCALE_DOWN`, `CLOSE` and `FLIP` realise their P&L and keep the basis. -/
theorem apply_decrease (h : Holding) (tid : String) (ev : EquityEvent)
    (hk : ev.eventType = .scaleDown ∨ ev.eventType.Terminal ∧ after = 0)
    (hq : ev.qtyAfter = some after) (h0 : 0 ≤ after) (hle : after ≤ h.qty)
    (hd : ev.realizedPnlDeltaUsdt = some delta)
    (hs : after ≠ 0 → ∃ size, ev.sizeUsdtAfter = some size ∧ 0 < size) :
    ∃ h', h.apply tid ev = .ok h' ∧ h'.qty = after ∧ h'.basis = h.basis ∧
      h'.realized = h.realized + delta := by
  have hb : h.book tid ev after (pyOr ev.feeUsdt 0) =
      .ok { h with realized := h.realized + delta } := by
    unfold book
    rcases hk with hk | ⟨hk | hk, ha⟩ <;>
      simp_all [number, EventType.Terminal]
  obtain ⟨notional, he⟩ := apply_of_book hq h0 hs rfl hb
  exact ⟨_, he, rfl, rfl, rfl⟩

/-- `LEVERAGE_ADJUST` keeps the quantity. -/
theorem apply_leverage (h : Holding) (tid : String) (ev : EquityEvent)
    (hk : ev.eventType = .leverageAdjust) (hq : ev.qtyAfter = some h.qty)
    (h0 : 0 ≤ h.qty) (hs : h.qty ≠ 0 → ∃ size, ev.sizeUsdtAfter = some size ∧ 0 < size) :
    ∃ h', h.apply tid ev = .ok h' ∧ h'.qty = h.qty ∧ h'.basis = h.basis ∧
      h'.realized = h.realized := by
  have hb : h.book tid ev h.qty (pyOr ev.feeUsdt 0) =
      .ok { h with separateFees := h.separateFees + pyOr ev.feeUsdt 0 } := by
    unfold book
    simp [hk]
  obtain ⟨notional, he⟩ := apply_of_book hq h0 hs rfl hb
  exact ⟨_, he, rfl, rfl, rfl⟩

/-- An opening event that leaves no quantity is refused. -/
theorem apply_open_zero (h : Holding) (tid : String) (ev : EquityEvent)
    (hk : ev.eventType = .open_) (hq : ev.qtyAfter = some 0)
    (h0 : 0 ≤ h.qty) : ∃ err, h.apply tid ev = .error err := by
  unfold apply
  simp only [hq, number, Bool.false_eq_true, false_and, if_false, ok_bind, lt_irrefl]
  unfold book
  simp only [hk]
  cases number ev.price "execution price" true with
  | error err => exact ⟨err, rfl⟩
  | ok price => exact ⟨_, by simp only [ok_bind, if_pos h0]; rfl⟩

end Holding

namespace Position

/-- The loop of `_Position.advance` over the events from `index` on. -/
def advanceOver (cutoff : Time) : List EquityEvent → Position → Except EquityDataError Position
  | [], p => .ok p
  | event :: rest, p =>
    if event.dt < cutoff then do
      let h ← p.toHolding.apply p.trade.id event
      advanceOver cutoff rest { p with toHolding := h, index := p.index + 1 }
    else .ok p

/-- `_Position.advance` -/
def advance (p : Position) (cutoff : Time) : Except EquityDataError Position :=
  advanceOver cutoff (p.events.drop p.index) p

/-- A cutoff after all events consumes all of them. -/
theorem advanceOver_all {cutoff : Time} {evs : List EquityEvent} (he : ∀ ev ∈ evs, ev.dt < cutoff)
    (p : Position) : advanceOver cutoff evs p = (Holding.applyAll p.trade.id evs p.toHolding).map
      fun h => { p with toHolding := h, index := p.index + evs.length } := by
  induction evs generalizing p with
  | nil => rfl
  | cons ev evs ih =>
    rw [advanceOver, if_pos (he ev List.mem_cons_self), Holding.applyAll]
    cases p.toHolding.apply p.trade.id ev with
    | error err => rfl
    | ok h =>
      simp only [ok_bind]
      rw [ih fun ev' h' => he ev' (List.mem_cons_of_mem _ h')]
      rw [List.length_cons, Nat.add_comm evs.length 1, Nat.add_assoc]

end Position

end P300
