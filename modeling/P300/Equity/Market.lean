import P300.Candles
import P300.Equity.Position
import P300.Lib.Meter

/-!
# The marked value of a position

`_Market` and `_Position.value` of `strategies/support/equity.py`. What a position is worth at a
cutoff is its realised P&L less the separate fees, the held quantity against the last completed
minute, and the funding of its notional up to the cutoff. The caches of `_Market` hold what one
transaction reads twice, and are left out.
-/

namespace P300

/-- What `_Market` reads; a funding rate that is not a finite number is `none`. -/
structure MarketData where
  /-- `clock.is_simulated()` -/
  simulated : Bool
  btc1m : CandleTable
  eth1m : CandleTable
  /-- `cd_funding_rate`: a timestamp in seconds and the rate `fr_close` -/
  fundingRate : List (Int × Option ℚ)
  /-- `cd_funding_rate_eth` -/
  fundingRateEth : List (Int × Option ℚ)

/-- The settlements after `start` and before `stop`: the values of the loop variable of
`_Market.funding`, in seconds. -/
def settlements (start stop : Time) : List Int :=
  let first := (start.tdiv 1_000_000 / 28_800 + 1) * 28_800
  -- the number of rounds of the loop `while ts < stop: ts += 28800`
  let rounds := (stop - first * 1_000_000 + 28_800_000_000 - 1) / 28_800_000_000
  (List.range rounds.toNat).map fun (i : Nat) => first + 28_800 * i

/-- The settlements strictly between two instants. -/
theorem mem_settlements {start stop : Time} (h : 0 ≤ start) {ts : Int} :
    ts ∈ settlements start stop ↔ ts % 28_800 = 0 ∧ start < ts * 1_000_000 ∧
      ts * 1_000_000 < stop := by
  have hdiv : start.tdiv 1_000_000 = start / 1_000_000 := Int.tdiv_eq_ediv_of_nonneg h
  have arith : ∀ s e : Int, (∃ i : Nat,
      i < ((e - (s / 1_000_000 / 28_800 + 1) * 28_800 * 1_000_000 +
      28_800_000_000 - 1) / 28_800_000_000).toNat ∧
        (s / 1_000_000 / 28_800 + 1) * 28_800 + 28_800 * (i : Int) = ts) ↔
      ts % 28_800 = 0 ∧ s < ts * 1_000_000 ∧ ts * 1_000_000 < e := by
    intro s e
    constructor
    · rintro ⟨i, hi, rfl⟩
      omega
    · rintro ⟨hgrid, h1, h2⟩
      exact ⟨((ts - (s / 1_000_000 / 28_800 + 1) * 28_800) / 28_800).toNat, by omega, by omega⟩
  rw [← arith, settlements, hdiv]
  simp only [List.mem_map, List.mem_range]

namespace MarketData

variable (market : MarketData)

/-- `_Market.mark` -/
def mark (asset : String) (cutoff : Time) : Except EquityDataError ℚ := do
  let table ←
    if asset = "BTC" then .ok market.btc1m
    else if asset = "ETH" then .ok market.eth1m
    else .error (.noMarkSource asset)
  let cutoffMs := cutoff.tdiv 1000
  match table.lastUpTo (cutoffMs - 60_000) with
  | none => .error (.missingMark asset cutoff)
  | some row =>
    if cutoffMs - row.openTime > 600_000 then .error (.missingMark asset cutoff)
    -- the live feed updates its provisional last row with its successor
    else if market.simulated = false ∧ table.latest = some row.openTime then
      .error (.unfinalizedMark asset cutoff)
    else number row.close s!"{asset} mark at {isoformat cutoff}" true

/-- One round of the loop of `_Market.funding`. -/
def settle (asset : String) (table : List (Int × Option ℚ)) (notional sign : ℚ) (total : ℚ)
    (ts : Int) : Except EquityDataError ℚ :=
  match table.find? fun row => row.1 = ts with
  | none => .error (.missingFunding asset ts)
  | some row => do
    let rate ← number row.2 s!"{asset} funding at {ts}"
    return total + sign * notional * rate

/-- `_Market.funding` -/
def funding (asset : String) (start stop : Time)
    (notional sign : ℚ) : Except EquityDataError ℚ := do
  let table ←
    if asset = "BTC" then .ok market.fundingRate
    else if asset = "ETH" then .ok market.fundingRateEth
    else .error (.noFundingSource asset)
  (settlements start stop).foldlM (settle asset table notional sign) 0

/-- The funding of the notional segments up to the cutoff. A resize at a settlement timestamp
settles the old position. -/
def fundingOver (asset : String) (sign : ℚ) (cutoff : Time) (total : ℚ) :
    List (Time × ℚ) → Except EquityDataError ℚ
  | [] => .ok total
  | [(start, notional)] => do return total + (← market.funding asset start cutoff notional sign)
  | (start, notional) :: (next, notional') :: rest => do
    let total := total + (← market.funding asset start (next + 1) notional sign)
    fundingOver asset sign cutoff total ((next, notional') :: rest)

end MarketData

/-- `_NO_FUNDING` -/
def noFunding : List String := ["PDO_RETOUCH", "CHENTO_TRIPLE_V3"]

namespace Position

/-- What a position is worth that has been advanced to the cutoff. -/
def worth (market : MarketData) (p : Position) (cutoff : Time) : Except EquityDataError ℚ := do
  let total := p.realized - p.separateFees
  if p.qty = 0 then return total
  let strategy := p.trade.strategy.toUpper
  let asset := p.trade.asset.toUpper
  let sign : ℚ := if p.trade.direction = .long then 1 else -1
  let total ←
    if strategy ≠ "CARRY" then
      (market.mark asset cutoff).map fun price => total + sign * p.qty * (price - p.basis)
    else .ok total
  if strategy ∉ noFunding then
    market.fundingOver asset (if strategy = "CARRY" then 1 else -sign) cutoff total p.segments
  else return total

/-- `_Position.value`, and the position that it leaves. -/
def value (market : MarketData) (p : Position) (cutoff : Time) :
    Except EquityDataError (ℚ × Position) := do
  let p ← p.advance cutoff
  return (← p.worth market cutoff, p)

section advance

variable {c c' : Time} {p q : Position}

theorem advanceOver_resume {evs : List EquityEvent} (hevs : p.events.drop p.index = evs)
    (h : advanceOver c evs p = .ok q) (hle : c ≤ c') : q.advance c' = advanceOver c' evs p := by
  induction evs generalizing p with
  | nil =>
    cases h
    rw [advance, hevs]
  | cons ev evs ih =>
    rw [advanceOver] at h
    split at h
    · next hlt =>
      obtain ⟨h₁, hap, h⟩ := of_bind_ok h
      have hrest : p.events.drop (p.index + 1) = evs := by
        rw [← List.tail_drop, hevs, List.tail_cons]
      rw [ih hrest h, advanceOver, if_pos (hlt.trans_le hle), hap]
      rfl
    · cases h
      rw [advance, hevs]

/-- Advancing in two steps is advancing at once. -/
theorem advance_resume (h : p.advance c = .ok q) (hle : c ≤ c') : q.advance c' = p.advance c' :=
  advanceOver_resume rfl h hle

/-- Before the first event nothing is advanced. -/
theorem advance_before (hc : ∀ ev ∈ p.events, c ≤ ev.dt) : p.advance c = .ok p := by
  unfold advance
  cases hd : p.events.drop p.index with
  | nil => rfl
  | cons ev evs =>
    have hev : ev ∈ p.events := List.mem_of_mem_drop (hd ▸ List.mem_cons_self)
    rw [advanceOver, if_neg (hc ev hev).not_gt]

end advance

/-- Valuing a position does not change what it is worth later. -/
theorem value_resumes (market : MarketData) : Meter.Resumes (value market) := by
  intro p c v q h c' hle
  obtain ⟨q', hadv, h⟩ := of_bind_ok h
  obtain ⟨w, -, h⟩ := of_bind_ok h
  cases h
  unfold value
  rw [advance_resume hadv hle]

/-- Before its first event a position is worth nothing. -/
theorem value_before (market : MarketData) {p : Position} {c : Time} (hp : p.toHolding = {})
    (hc : ∀ ev ∈ p.events, c ≤ ev.dt) : p.value market c = .ok (0, p) := by
  have hworth : p.worth market c = .ok 0 := by
    unfold worth
    rw [hp, if_pos rfl]
    exact congrArg Except.ok (sub_zero 0)
  rw [value, advance_before hc, ok_bind, hworth, ok_bind]
  rfl

end Position

end P300
