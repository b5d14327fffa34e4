import P300.Margin.Checks

/-!
# The margin lost and the cash

`LiquidationEvent.margin_lost` is documented as the cash that a liquidation debits. It is the size
of the profit plus the fee, where the cash takes the profit less the fee: the two differ by twice
the profit of a perp that is liquidated in profit.
-/

namespace P300

/-- Twice the profit of a perp that the check liquidates in profit. -/
def MarginCheck.excess (params : SimParams) (spotLegs : List SpotLeg) (c : MarginCheck) : ℚ :=
  match c.breach params spotLegs with
  | .ok (some _) => |c.pnl| + c.pnl
  | _ => 0

/-- The sum of `margin_lost` over some liquidations. -/
def marginLost (liquidations : List LiquidationEvent) : ℚ := (liquidations.map (·.marginLost)).sum

variable {params : SimParams} {spotLegs : List SpotLeg} {c : MarginCheck}

theorem marginLost_liquidation (c : MarginCheck) :
    marginLost (c.liquidation params spotLegs).toList =
      c.excess params spotLegs - c.realized params spotLegs := by
  rw [MarginCheck.liquidation, MarginCheck.excess, MarginCheck.realized]
  rcases c.breach params spotLegs with e | found | reason
  · exact (sub_self 0).symm
  · exact (sub_self 0).symm
  · rw [Option.toList_some, marginLost, List.map_singleton, List.sum_singleton]
    ring

theorem marginLost_checks (checks : List MarginCheck) :
    marginLost (checks.filterMap (·.liquidation params spotLegs)) =
      (checks.map (·.excess params spotLegs)).sum - (checks.map
        (·.realized params spotLegs)).sum := by
  induction checks with
  | nil => exact (sub_self 0).symm
  | cons c checks ih =>
    have hcons : (c :: checks).filterMap (·.liquidation params spotLegs) =
        (c.liquidation params spotLegs).toList ++ checks.filterMap
          (·.liquidation params spotLegs) := by
      rw [List.filterMap_cons]
      cases c.liquidation params spotLegs <;> rfl
    rw [hcons, marginLost, List.map_append, List.sum_append, ← marginLost, ← marginLost,
      marginLost_liquidation, ih, List.map_cons, List.map_cons, List.sum_cons, List.sum_cons]
    ring

theorem excess_nonneg (c : MarginCheck) : 0 ≤ c.excess params spotLegs := by
  rw [MarginCheck.excess]
  split
  · linarith [neg_abs_le c.pnl]
  · exact le_refl 0

theorem excess_eq_zero_iff :
    c.excess params spotLegs = 0 ↔ (c.Breached params spotLegs → c.pnl ≤ 0) := by
  rw [MarginCheck.excess, MarginCheck.Breached]
  split
  · next reason hfound =>
    have hbreached : ∃ reason, c.breach params spotLegs = .ok (some reason) := ⟨reason, hfound⟩
    rw [imp_iff_right hbreached, ← abs_eq_neg_self]
    exact ⟨fun h => by linarith, fun h => by linarith⟩
  · next hnot => exact iff_of_true rfl fun hbreached => (hnot _ hbreached.choose_spec).elim

theorem sum_eq_zero_iff_of_nonneg {α : Type} {f : α → ℚ} (hf : ∀ a, 0 ≤ f a) (l : List α) :
    (l.map f).sum = 0 ↔ ∀ a ∈ l, f a = 0 := by
  constructor
  · intro h a ha
    refine List.all_zero_of_le_zero_le_of_sum_eq_zero ?_ h (List.mem_map_of_mem ha)
    intro x hx
    obtain ⟨b, -, rfl⟩ := List.mem_map.mp hx
    exact hf b
  · intro h
    refine List.sum_eq_zero fun x hx => ?_
    obtain ⟨b, hb, rfl⟩ := List.mem_map.mp hx
    exact h b hb

section Walk

variable {initial : ℚ} {perps : List PerpPosition} {perpBars spotBars : Dict String (List PriceBar)}
  {settlements : List FundingSettlement} {r : SimulationResult}

/-- No check of the walk finds a breach for a perp that is in profit at the mark of the check. -/
def LiquidatesAtLoss (params : SimParams) (spotLegs : List SpotLeg) (s : MarginState)
    (timeline : List MarginEvent) : Prop :=
  ∀ c ∈ walkChecks params spotLegs s timeline, c.Breached params spotLegs → c.pnl ≤ 0

/-- The margin lost is what the cash was debited exactly if no perp is liquidated in profit. -/
theorem margin_lost_is_debit_iff
    (h : simulatePositionPath initial perps spotLegs perpBars spotBars settlements params = .ok r) :
    initial - r.finalUsdt = r.fundingPaid + marginLost r.liquidations ↔
      LiquidatesAtLoss params spotLegs (marginStart initial perps spotLegs)
        (marginTimeline perpBars spotBars settlements) := by
  obtain ⟨s, hrun, hr⟩ := of_bind_ok h
  cases hr
  have hacc := accountedBy_run hrun
  have hliq : s.liquidations = (walkChecks params spotLegs (marginStart initial perps spotLegs)
      (marginTimeline perpBars spotBars settlements)).filterMap (·.liquidation params spotLegs) :=
    hacc.liquidations
  have hcash : s.cash + s.fundingPaidTotal = initial + 0 + _ := hacc.cash
  have hlost := @marginLost_checks params spotLegs
    (walkChecks params spotLegs (marginStart initial perps spotLegs)
      (marginTimeline perpBars spotBars settlements))
  rw [← hliq] at hlost
  change initial - s.cash = s.fundingPaidTotal + marginLost s.liquidations ↔ _
  rw [hlost]
  have hsum := sum_eq_zero_iff_of_nonneg (@excess_nonneg params spotLegs)
    (walkChecks params spotLegs (marginStart initial perps spotLegs)
      (marginTimeline perpBars spotBars settlements))
  simp only [excess_eq_zero_iff] at hsum
  rw [LiquidatesAtLoss, ← hsum]
  exact ⟨fun h => by linarith, fun h => by linarith⟩

end Walk

/-- A long of 10 ETH and a short of 10 BTC. -/
def profitPerps : List PerpPosition := pumpPerps.reverse

/-- BTC rises to 110, and ETH to 13, from which it falls back to 11. -/
def profitBars : Dict String (List PriceBar) :=
  (Dict.empty.set "ETH" [⟨1, 13, 12, 13⟩, ⟨2, 12, 11, 12⟩]).set "BTC" [⟨1, 110, 100, 110⟩]

/-- The long is liquidated at a profit of 10 and a fee of 0.55, which add 9.45 to the cash; its
margin lost is 10.55. -/
theorem profit_reported_as_lost :
    (simulatePositionPath 95 profitPerps [] profitBars .empty []).toOption.map (fun r =>
      (r.liquidations.map fun e => (e.positionId, e.marginLost), 95 - r.finalUsdt, r.fundingPaid)) =
        some ([("B", 1055 / 100)], -945 / 100, 0) ∧
    ∃ r, simulatePositionPath 95 profitPerps [] profitBars .empty [] = .ok r ∧
      95 - r.finalUsdt ≠ r.fundingPaid + marginLost r.liquidations := by
  have hrun : (simulatePositionPath 95 profitPerps [] profitBars .empty []).toOption.map (fun r =>
      (r.liquidations.map fun e => (e.positionId, e.marginLost), 95 - r.finalUsdt, r.fundingPaid)) =
        some ([("B", 1055 / 100)], -945 / 100, 0) := by decide +kernel
  have hne : (simulatePositionPath 95 profitPerps [] profitBars .empty []).toOption.map (fun r =>
      decide (95 - r.finalUsdt ≠ r.fundingPaid + marginLost r.liquidations)) = some true := by
    decide +kernel
  refine ⟨hrun, ?_⟩
  cases h : simulatePositionPath 95 profitPerps [] profitBars .empty [] with
  | error e =>
    rw [h] at hne
    cases hne
  | ok r =>
    rw [h] at hne
    exact ⟨r, rfl, of_decide_eq_true (Option.some.inj hne)⟩

theorem margin_lost_is_debit_iff_pump :
    ∃ r, simulatePositionPath 300 pumpPerps [] pumpBars .empty pumpSettlements = .ok r ∧
      (300 - r.finalUsdt = r.fundingPaid + marginLost r.liquidations ↔
        LiquidatesAtLoss {} [] (marginStart 300 pumpPerps [])
          (marginTimeline pumpBars .empty pumpSettlements)) := by
  have hrun : (simulatePositionPath 300 pumpPerps [] pumpBars .empty pumpSettlements).isOk := by
    decide +kernel
  cases h : simulatePositionPath 300 pumpPerps [] pumpBars .empty pumpSettlements with
  | error e =>
    rw [h] at hrun
    cases hrun
  | ok r => exact ⟨r, rfl, margin_lost_is_debit_iff h⟩

end P300
