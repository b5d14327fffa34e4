import Mathlib.Algebra.Order.BigOperators.Group.List
import Mathlib.Algebra.Order.Ring.Abs
import Mathlib.Data.List.Induction
import Mathlib.Tactic.Linarith
import P300.Margin.Cash

/-!
# Breaches that are left standing

The headroom of the cross account is its pool less the maintenance margin of the open perps. A check
that does not liquidate proves headroom, and a sweep ends with headroom or without perps. A spot bar
is not followed by a check, and a liquidation within a bar may be the last check of that bar, so the
account can be left without headroom.
-/

namespace P300

/-! ## Headroom -/

/-- What the spot legs count for. -/
def spotCollateral (spotLegs : List SpotLeg) (spotMarks : Dict String ℚ) (haircut : ℚ) : ℚ :=
  (spotLegs.map fun spot => spotCollateralValue spot (spotMark spotMarks spot) haircut).sum

/-- What a perp at a mark adds to the pool, less the margin that it needs. -/
def perpStake (mmPct : ℚ) (pos : PerpPosition) (mark : ℚ) : ℚ :=
  perpUnrealizedPnl pos mark - |pos.qty| * mark * mmPct

/-- Pool less required margin. -/
def crossHeadroom (params : SimParams) (spotLegs : List SpotLeg) (cash : ℚ)
    (perps : List PerpPosition) (perpMarks spotMarks : Dict String ℚ) : ℚ :=
  crossMarginPool cash perps perpMarks spotLegs spotMarks params.spotHaircut -
    requiredMaintenanceMargin perps perpMarks params.mmPct

def MarginState.headroom (params : SimParams) (spotLegs : List SpotLeg) (s : MarginState) : ℚ :=
  crossHeadroom params spotLegs s.cash s.openPerps s.perpMarks s.spotMarks

/-- No perp is open, or the pool covers the required margin. -/
def MarginState.Covered (params : SimParams) (spotLegs : List SpotLeg) (s : MarginState) : Prop :=
  s.openPerps = [] ∨ requiredMaintenanceMargin s.openPerps s.perpMarks params.mmPct ≤
    crossMarginPool s.cash s.openPerps s.perpMarks spotLegs s.spotMarks params.spotHaircut

section Headroom

variable {params : SimParams} {spotLegs : List SpotLeg} {s s' : MarginState}

theorem covered_iff : s.Covered params spotLegs ↔ s.openPerps = [] ∨
    0 ≤ s.headroom params spotLegs := by
  rw [MarginState.Covered, MarginState.headroom, crossHeadroom, sub_nonneg]

theorem foldl_add {α : Type} (f : α → ℚ) (l : List α) (a : ℚ) :
    l.foldl (fun acc x => acc + f x) a = a + (l.map f).sum := by
  induction l generalizing a with
  | nil => exact (add_zero a).symm
  | cons x l ih => rw [List.foldl_cons, ih, List.map_cons, List.sum_cons, add_assoc]

theorem crossHeadroom_eq (cash : ℚ) (perps : List PerpPosition)
    (perpMarks spotMarks : Dict String ℚ) :
    crossHeadroom params spotLegs cash perps perpMarks spotMarks =
      cash + spotCollateral spotLegs spotMarks params.spotHaircut +
        (perps.map fun pos => perpStake params.mmPct pos (perpMark perpMarks pos)).sum := by
  have hstakes : (perps.map fun pos => perpStake params.mmPct pos (perpMark perpMarks pos)).sum =
      (perps.map fun pos => perpUnrealizedPnl pos (perpMark perpMarks pos)).sum -
        (perps.map fun pos => |pos.qty| * perpMark perpMarks pos * params.mmPct).sum := by
    induction perps with
    | nil => exact (sub_zero 0).symm
    | cons pos perps ih =>
      rw [List.map_cons, List.map_cons, List.map_cons, List.sum_cons, List.sum_cons,
        List.sum_cons, ih, perpStake]
      ring
  rw [crossHeadroom, crossMarginPool, requiredMaintenanceMargin, foldl_add, foldl_add, foldl_add,
    hstakes, spotCollateral]
  ring

/-- The mark of a perp whose id was just marked, or of another one. -/
theorem perpMark_set (perpMarks : Dict String ℚ) (id : String) (mark : ℚ) (pos : PerpPosition) :
    perpMark (perpMarks.set id mark) pos = if pos.id = id then mark
      else perpMark perpMarks pos := by
  rw [perpMark, Dict.get?_set]
  split <;> rfl

/-- The headroom that a check of `pos` at `mark` looks at. -/
def MarginState.checkedHeadroom (params : SimParams) (spotLegs : List SpotLeg) (s : MarginState)
    (pos : PerpPosition) (mark : ℚ) : ℚ :=
  crossHeadroom params spotLegs s.cash s.openPerps (s.perpMarks.set pos.id mark) s.spotMarks

/-- Of a liquidation: the margin that it frees, less its fee. -/
def liquidationRelief (params : SimParams) (pos : PerpPosition) (mark : ℚ) : ℚ :=
  |pos.qty| * mark * params.mmPct - |pos.qty| * mark * params.liquidationFeePct

theorem headroom_doLiquidate {pos : PerpPosition} (hopen : pos ∈ s.openPerps) (ts : Time) (mark : ℚ)
    (reason : LiquidationReason) :
    (doLiquidate params pos ts mark reason s).headroom params spotLegs =
      s.checkedHeadroom params spotLegs pos mark + liquidationRelief params pos mark := by
  have herase := List.sum_map_erase
    (fun p => perpStake params.mmPct p (perpMark (s.perpMarks.set pos.id mark) p)) hopen
  rw [MarginState.headroom, MarginState.checkedHeadroom, crossHeadroom_eq,
    crossHeadroom_eq, ← herase, perpMark_set, if_pos rfl, perpStake, liquidationRelief]
  simp only [doLiquidate]
  ring

theorem liquidateOneIfBreached_of_not_mem {pos : PerpPosition}
    (hopen : pos ∉ s.openPerps) (ts : Time) (mark : ℚ) :
    liquidateOneIfBreached params spotLegs pos ts mark s = .ok s := by
  rw [liquidateOneIfBreached, if_pos hopen]

/-- With headroom a check in cross mode leaves the state. -/
theorem liquidateOneIfBreached_keeps (hmode : params.marginMode = .cross) {pos : PerpPosition}
    {mark : ℚ} (hroom : 0 ≤ s.checkedHeadroom params spotLegs pos mark) (ts : Time) :
    liquidateOneIfBreached params spotLegs pos ts mark s = .ok s := by
  by_cases hopen : pos ∉ s.openPerps
  · exact liquidateOneIfBreached_of_not_mem hopen ts mark
  · have hle := sub_nonneg.mp hroom
    rw [liquidateOneIfBreached, if_neg hopen, hmode]
    exact if_neg (not_lt.mpr hle)

/-- Without headroom a check in cross mode liquidates. -/
theorem liquidateOneIfBreached_liquidates (hmode : params.marginMode = .cross) {pos : PerpPosition}
    (hopen : pos ∈ s.openPerps) {mark : ℚ}
    (hbreach : s.checkedHeadroom params spotLegs pos mark < 0) (ts : Time) :
    ∃ reason, liquidateOneIfBreached params spotLegs pos ts mark s =
      .ok (doLiquidate params pos ts mark reason s) := by
  have hlt := sub_neg.mp hbreach
  refine ⟨.crossBreach (crossMarginPool s.cash s.openPerps (s.perpMarks.set pos.id mark) spotLegs
    s.spotMarks params.spotHaircut) (requiredMaintenanceMargin s.openPerps
    (s.perpMarks.set pos.id mark) params.mmPct), ?_⟩
  rw [liquidateOneIfBreached, if_neg (not_not.mpr hopen), hmode]
  exact if_pos hlt

/-! ## A sweep -/

variable {initial : ℚ} {perps : List PerpPosition}

/-- Marking a perp as it is marked changes no headroom. -/
theorem checkedHeadroom_self (hids : (s.openPerps.map (·.id)).Nodup) {pos : PerpPosition}
    (hopen : pos ∈ s.openPerps) :
    s.checkedHeadroom params spotLegs pos (perpMark s.perpMarks pos) =
      s.headroom params spotLegs := by
  rw [MarginState.checkedHeadroom, MarginState.headroom, crossHeadroom_eq, crossHeadroom_eq]
  congr 2
  refine List.map_congr_left fun p hp => ?_
  rw [perpMark_set]
  split
  · next hid => rw [List.inj_on_of_nodup_map hids hp hopen hid]
  · rfl

theorem sweep_covered (hmode : params.marginMode = .cross) {ts : Time} {l : List PerpPosition}
    (hids : (s.openPerps.map (·.id)).Nodup)
    (hl : s.Covered params spotLegs ∨ ∀ p ∈ s.openPerps, p ∈ l) :
    ∃ s', l.foldlM (fun s pos =>
      liquidateOneIfBreached params spotLegs pos ts (perpMark s.perpMarks pos) s) s = .ok s' ∧
      s'.Covered params spotLegs := by
  induction l generalizing s with
  | nil =>
    refine ⟨s, rfl, hl.elim id fun hnone => .inl ?_⟩
    exact List.eq_nil_iff_forall_not_mem.mpr fun p hp => List.not_mem_nil (hnone p hp)
  | cons pos l ih =>
    rw [List.foldlM_cons]
    by_cases hopen : pos ∈ s.openPerps
    · by_cases hroom : 0 ≤ s.headroom params spotLegs
      · rw [liquidateOneIfBreached_keeps hmode (by rwa [checkedHeadroom_self hids hopen])]
        exact ih hids (.inl (covered_iff.mpr (.inr hroom)))
      · have hbreach : s.checkedHeadroom params spotLegs pos (perpMark s.perpMarks pos) < 0 := by
          rw [checkedHeadroom_self hids hopen]
          exact not_le.mp hroom
        obtain ⟨reason, hliq⟩ := liquidateOneIfBreached_liquidates hmode hopen hbreach ts
        rw [hliq]
        refine ih (hids.sublist (List.erase_sublist.map _)) (.inr fun p hp => ?_)
        have hne : p ≠ pos := fun heq => id_ne_of_mem_erase hids hopen hp (heq ▸ rfl)
        have hcov : ¬ s.Covered params spotLegs := fun hcov =>
          (covered_iff.mp hcov).elim (fun hnil => by rw [hnil] at hopen; cases hopen) hroom
        exact (List.mem_cons.mp (hl.resolve_left hcov p (List.mem_of_mem_erase hp))).resolve_left
          hne
    · rw [liquidateOneIfBreached_of_not_mem hopen]
      refine ih hids (hl.imp_right fun hmem p hp => ?_)
      exact (List.mem_cons.mp (hmem p hp)).resolve_left fun heq => hopen (heq ▸ hp)

/-- After a sweep the account is covered. -/
theorem liquidateBreaches_covered (hmode : params.marginMode = .cross) (ts : Time)
    (hids : (s.openPerps.map (·.id)).Nodup) :
    ∃ s', liquidateBreaches params spotLegs ts s = .ok s' ∧ s'.Covered params spotLegs :=
  sweep_covered hmode hids (.inr fun _ hp => hp)

/-! ## A bar -/

/-- A perp of positive quantity. -/
def PerpPosition.Sized (pos : PerpPosition) : Prop := 0 < pos.sizeUsdt ∧ 0 < pos.entryPrice

theorem PerpPosition.Sized.qty_pos {pos : PerpPosition} (h : pos.Sized) : 0 < pos.qty :=
  div_pos h.1 h.2

def PriceBar.InRange (bar : PriceBar) : Prop := bar.low ≤ bar.close ∧ bar.close ≤ bar.high

/-- The close is no worse than the adverse mark. -/
theorem perpStake_adverse_le_close {pos : PerpPosition} {bar : PriceBar} {mmPct : ℚ}
    (hpos : pos.Sized) (hbar : bar.InRange) (h0 : 0 < mmPct) (h1 : mmPct < 1) :
    perpStake mmPct pos (adverseMark pos bar) ≤ perpStake mmPct pos bar.close := by
  have hqty := hpos.qty_pos
  rw [perpStake, perpStake, perpUnrealizedPnl, perpUnrealizedPnl, adverseMark, abs_of_pos hqty]
  cases hside : pos.side with
  | long =>
    rw [if_neg (by decide), PerpSide.sign]
    nlinarith [mul_nonneg hqty.le (mul_nonneg (sub_nonneg.mpr hbar.1) (sub_nonneg.mpr h1.le))]
  | short =>
    rw [if_pos rfl, PerpSide.sign]
    nlinarith [mul_nonneg hqty.le (sub_nonneg.mpr hbar.2),
      mul_nonneg (mul_nonneg hqty.le (sub_nonneg.mpr hbar.2)) h0.le]

/-- Marking a perp at the close leaves at least the headroom that its check at the adverse mark
saw. -/
theorem checkedHeadroom_adverse_le {pos : PerpPosition} {bar : PriceBar}
    (hids : (s.openPerps.map (·.id)).Nodup) (hopen : pos ∈ s.openPerps) (hpos : pos.Sized)
    (hbar : bar.InRange) (h0 : 0 < params.mmPct) (h1 : params.mmPct < 1) :
    s.checkedHeadroom params spotLegs pos (adverseMark pos bar) ≤
      s.checkedHeadroom params spotLegs pos bar.close := by
  rw [MarginState.checkedHeadroom, MarginState.checkedHeadroom, crossHeadroom_eq, crossHeadroom_eq]
  refine add_le_add_right (List.sum_le_sum fun p hp => ?_) _
  rw [perpMark_set, perpMark_set]
  split
  · next hid =>
    rw [List.inj_on_of_nodup_map hids hp hopen hid]
    exact perpStake_adverse_le_close hpos hbar h0 h1
  · exact le_refl _

/-- A check within a bar ends with headroom, or it liquidates. -/
theorem checkInBar_cross (hmode : params.marginMode = .cross) {pos : PerpPosition} {bar : PriceBar}
    (hids : (s.openPerps.map (·.id)).Nodup) (hopen : pos ∈ s.openPerps) (hpos : pos.Sized)
    (hbar : bar.InRange) (h0 : 0 < params.mmPct) (h1 : params.mmPct < 1) :
    ∃ s', checkInBar params spotLegs bar s pos = .ok s' ∧
      (0 ≤ s.checkedHeadroom params spotLegs pos (adverseMark pos bar) ∧
          s'.openPerps = s.openPerps ∧ 0 ≤ s'.headroom params spotLegs ∨
        s.checkedHeadroom params spotLegs pos (adverseMark pos bar) < 0 ∧
          s'.openPerps = s.openPerps.erase pos ∧ s'.headroom params spotLegs =
            s.checkedHeadroom params spotLegs pos (adverseMark pos bar) +
              liquidationRelief params pos (adverseMark pos bar)) := by
  rw [checkInBar]
  by_cases hroom : 0 ≤ s.checkedHeadroom params spotLegs pos (adverseMark pos bar)
  · rw [liquidateOneIfBreached_keeps hmode hroom, ok_bind, if_pos hopen]
    exact ⟨_, rfl, .inl ⟨hroom, rfl,
      hroom.trans (checkedHeadroom_adverse_le hids hopen hpos hbar h0 h1)⟩⟩
  · obtain ⟨reason, hliq⟩ := liquidateOneIfBreached_liquidates hmode hopen (not_le.mp hroom) bar.ts
    have hclosed : pos ∉ (doLiquidate params pos bar.ts (adverseMark pos bar) reason s).openPerps :=
      fun hp => id_ne_of_mem_erase hids hopen hp rfl
    rw [hliq, ok_bind, if_neg hclosed]
    exact ⟨_, rfl, .inr ⟨not_le.mp hroom, rfl, headroom_doLiquidate hopen ..⟩⟩

/-- Checks within a bar keep the perps open that they are not called for. -/
theorem checksInBar_cross (hmode : params.marginMode = .cross) {bar : PriceBar} (hbar : bar.InRange)
    (h0 : 0 < params.mmPct) (h1 : params.mmPct < 1) {l : List PerpPosition} (hl : l.Nodup)
    (hids : (s.openPerps.map (·.id)).Nodup) (hopen : ∀ p ∈ l, p ∈ s.openPerps)
    (hsized : ∀ p ∈ l, p.Sized) :
    ∃ s', l.foldlM (checkInBar params spotLegs bar) s = .ok s' ∧
      s'.openPerps.Sublist s.openPerps ∧ ∀ p ∈ s.openPerps, p ∉ l → p ∈ s'.openPerps := by
  induction l generalizing s with
  | nil => exact ⟨s, rfl, .refl _, fun p hp _ => hp⟩
  | cons pos l ih =>
    obtain ⟨hnew, hl⟩ := List.nodup_cons.mp hl
    obtain ⟨s₁, h₁, hcases⟩ := checkInBar_cross (s := s) hmode hids (hopen pos List.mem_cons_self)
      (hsized pos List.mem_cons_self) hbar h0 h1
    have hsub : s₁.openPerps.Sublist s.openPerps ∧ ∀ p ∈ s.openPerps, p ≠ pos →
        p ∈ s₁.openPerps := by
      rcases hcases with ⟨_, hsame, _⟩ | ⟨_, herase, _⟩
      · rw [hsame]
        exact ⟨.refl _, fun p hp _ => hp⟩
      · rw [herase]
        exact ⟨List.erase_sublist, fun p hp hne => (List.mem_erase_of_ne hne).mpr hp⟩
    obtain ⟨s', h', hsub', hkeep'⟩ := ih hl (hids.sublist (hsub.1.map _))
      (fun p hp => hsub.2 p (hopen p (List.mem_cons_of_mem _ hp)) fun heq => hnew (heq ▸ hp))
      (fun p hp => hsized p (List.mem_cons_of_mem _ hp))
    refine ⟨s', ?_, hsub'.trans hsub.1, fun p hp hpl => ?_⟩
    · rw [List.foldlM_cons, h₁]
      exact h'
    · exact hkeep' p (hsub.2 p hp (List.ne_of_not_mem_cons hpl)) (List.not_mem_of_not_mem_cons hpl)

/-! ## When an event leaves the account covered -/

/-- The condition on an event and the state before it: a spot bar takes no more collateral than
there is headroom; if the last check of a perp bar liquidates while another perp stays open, the
shortfall and the fee are no more than the margin that is set free. -/
def EventCovered (params : SimParams) (spotLegs : List SpotLeg) (s : MarginState) :
    MarginEvent → Prop
  | .funding _ => True
  | .spotBar asset bar =>
    spotCollateral spotLegs s.spotMarks params.spotHaircut -
      spotCollateral spotLegs (s.spotMarks.set asset bar.close) params.spotHaircut ≤
        s.headroom params spotLegs
  | .perpBar asset bar =>
    ∀ init pos s₁, (s.openPerps.filter fun p => p.asset = asset) = init ++ [pos] →
      init.foldlM (checkInBar params spotLegs bar) { s with barsProcessed := s.barsProcessed + 1 } =
        .ok s₁ →
      s₁.checkedHeadroom params spotLegs pos (adverseMark pos bar) < 0 → s₁.openPerps ≠ [pos] →
      -s₁.checkedHeadroom params spotLegs pos (adverseMark pos bar) ≤
        liquidationRelief params pos (adverseMark pos bar)

/-- The bars of perps are in range. -/
def MarginEvent.InRange : MarginEvent → Prop
  | .perpBar _ bar => bar.InRange
  | _ => True

theorem foldl_payFunding_openPerps (f : FundingSettlement) (l : List PerpPosition)
    (s : MarginState) :
    (l.foldl (payFunding f) s).openPerps = s.openPerps := by
  induction l generalizing s with
  | nil => rfl
  | cons pos l ih => rw [List.foldl_cons, ih, payFunding_openPerps]

/-- The condition of a perp bar is about its last check. -/
theorem eventCovered_perpBar {asset : String} {bar : PriceBar} {init : List PerpPosition}
    {pos : PerpPosition} {s₁ : MarginState}
    (hl : (s.openPerps.filter fun p => p.asset = asset) = init ++ [pos])
    (h₁ : init.foldlM (checkInBar params spotLegs bar)
      { s with barsProcessed := s.barsProcessed + 1 } = .ok s₁) :
    EventCovered params spotLegs s (.perpBar asset bar) ↔
      (s₁.checkedHeadroom params spotLegs pos (adverseMark pos bar) < 0 → s₁.openPerps ≠ [pos] →
        -s₁.checkedHeadroom params spotLegs pos (adverseMark pos bar) ≤
          liquidationRelief params pos (adverseMark pos bar)) := by
  constructor
  · exact fun h => h init pos s₁ hl h₁
  · intro h init' pos' s₁' hl' h₁'
    obtain ⟨rfl, hlast⟩ := List.append_inj' (hl.symm.trans hl') rfl
    cases hlast
    rw [h₁] at h₁'
    cases h₁'
    exact h

/-- A perp bar leaves the account covered exactly under the condition. -/
theorem perpBar_covered_iff (hmode : params.marginMode = .cross) {asset : String} {bar : PriceBar}
    (hbar : bar.InRange) (h0 : 0 < params.mmPct) (h1 : params.mmPct < 1)
    (hids : (s.openPerps.map (·.id)).Nodup) (hsized : ∀ p ∈ s.openPerps, p.Sized)
    (hcov : s.Covered params spotLegs) :
    ∃ s', (s.openPerps.filter fun p => p.asset = asset).foldlM (checkInBar params spotLegs bar)
        { s with barsProcessed := s.barsProcessed + 1 } = .ok s' ∧
      (s'.Covered params spotLegs ↔ EventCovered params spotLegs s (.perpBar asset bar)) := by
  have hmem : ∀ p ∈ s.openPerps.filter fun p => p.asset = asset, p ∈ s.openPerps :=
    fun p hp => List.mem_of_mem_filter hp
  have hnodup : (s.openPerps.filter fun p => p.asset = asset).Nodup := (hids.of_map _).filter _
  rcases List.eq_nil_or_concat' (s.openPerps.filter fun p => p.asset = asset)
    with hnil | ⟨init, pos, hl⟩
  · rw [hnil]
    refine ⟨_, rfl, iff_of_true hcov fun init pos s₁ hl => ?_⟩
    rw [hnil] at hl
    exact absurd hl.symm (List.append_ne_nil_of_right_ne_nil _ (List.cons_ne_nil _ _))
  · rw [hl] at hmem hnodup
    have hnew : pos ∉ init := fun hpos =>
      (List.nodup_append.mp hnodup).2.2 pos hpos pos (List.mem_singleton_self pos) rfl
    have hpos : pos ∈ s.openPerps :=
      hmem pos (List.mem_append_right _ (List.mem_singleton_self pos))
    obtain ⟨s₁, h₁, hsub, hkeep⟩ := checksInBar_cross
      (s := { s with barsProcessed := s.barsProcessed + 1 }) hmode hbar h0 h1
      (List.nodup_append.mp hnodup).1 hids (fun p hp => hmem p (List.mem_append_left _ hp))
      (fun p hp => hsized p (hmem p (List.mem_append_left _ hp)))
    have hopen₁ := hkeep pos hpos hnew
    obtain ⟨s₂, h₂, hcases⟩ := checkInBar_cross hmode (hids.sublist (hsub.map _)) hopen₁
      (hsized pos hpos) hbar h0 h1
    refine ⟨s₂, ?_, ?_⟩
    · rw [hl, List.foldlM_append, h₁, ok_bind, List.foldlM_cons, h₂]
      rfl
    rw [eventCovered_perpBar hl h₁, covered_iff]
    rcases hcases with ⟨hroom, _, hhead⟩ | ⟨hbreach, herase, hhead⟩
    · exact iff_of_true (.inr hhead) fun hbreach => absurd hroom (not_le.mpr hbreach)
    · rw [herase, hhead]
      have hempty : s₁.openPerps.erase pos = [] ↔ s₁.openPerps = [pos] := by
        rw [List.erase_eq_nil_iff, or_iff_right (List.ne_nil_of_mem hopen₁)]
      rw [hempty]
      constructor
      · rintro (hsingle | hle) _ hne
        · exact absurd hsingle hne
        · linarith
      · intro h
        by_cases hsingle : s₁.openPerps = [pos]
        · exact .inl hsingle
        · exact .inr (by linarith [h hbreach hsingle])

/-- An event leaves a covered account covered exactly under its condition. -/
theorem step_covered_iff (hmode : params.marginMode = .cross) {event : MarginEvent}
    (hbar : event.InRange) (h0 : 0 < params.mmPct) (h1 : params.mmPct < 1)
    (hids : (s.openPerps.map (·.id)).Nodup) (hsized : ∀ p ∈ s.openPerps, p.Sized)
    (hcov : s.Covered params spotLegs) :
    ∃ s', s.step params spotLegs event = .ok s' ∧
      (s'.Covered params spotLegs ↔ (s.openPerps ≠ [] → EventCovered params spotLegs s event)) := by
  unfold MarginState.step
  by_cases hopen : s.openPerps = []
  · rw [if_pos hopen]
    exact ⟨s, rfl, iff_of_true hcov fun hne => absurd hopen hne⟩
  rw [if_neg hopen]
  cases event with
  | funding f =>
    have hpaid : (((s.openPerps.foldl (payFunding f) s).openPerps).map (·.id)).Nodup := by
      rwa [foldl_payFunding_openPerps]
    obtain ⟨s', hs', hcov'⟩ := liquidateBreaches_covered hmode f.ts hpaid
    exact ⟨s', hs', iff_of_true hcov' fun _ => trivial⟩
  | perpBar asset bar =>
    obtain ⟨s', hs', hiff⟩ := perpBar_covered_iff hmode hbar h0 h1 hids hsized hcov
    exact ⟨s', hs', hiff.trans (imp_iff_right hopen).symm⟩
  | spotBar asset bar =>
    refine ⟨_, rfl, ?_⟩
    have hhead : MarginState.headroom params spotLegs
        { s with spotMarks := s.spotMarks.set asset bar.close } = s.headroom params spotLegs -
          (spotCollateral spotLegs s.spotMarks params.spotHaircut -
            spotCollateral spotLegs (s.spotMarks.set asset bar.close) params.spotHaircut) := by
      rw [MarginState.headroom, MarginState.headroom, crossHeadroom_eq, crossHeadroom_eq]
      ring
    rw [covered_iff, hhead, sub_nonneg]
    exact ⟨fun h _ => h.resolve_left hopen, fun h => .inr (h hopen)⟩

end Headroom

/-! ## The whole walk -/

section Walk

variable {initial : ℚ} {perps : List PerpPosition} {spotLegs : List SpotLeg} {params : SimParams}
  {perpBars spotBars : Dict String (List PriceBar)} {settlements : List FundingSettlement}

/-- After every prefix of the timeline the account is covered. -/
def NeverInBreach (params : SimParams) (initial : ℚ) (perps : List PerpPosition)
    (spotLegs : List SpotLeg) (timeline : List MarginEvent) : Prop :=
  ∀ before after, timeline = before ++ after →
    ∃ s, marginRun params spotLegs (marginStart initial perps spotLegs) before = .ok s ∧
      s.Covered params spotLegs

/-- The account is covered at entry, and each event meets its condition while a perp is open. -/
structure CoveredThroughout (params : SimParams) (initial : ℚ) (perps : List PerpPosition)
    (spotLegs : List SpotLeg) (timeline : List MarginEvent) : Prop where
  entry : (marginStart initial perps spotLegs).Covered params spotLegs
  events : ∀ before event after s, timeline = before ++ event :: after →
    marginRun params spotLegs (marginStart initial perps spotLegs) before = .ok s →
    s.openPerps ≠ [] → EventCovered params spotLegs s event

theorem mem_marginTimeline {event : MarginEvent} :
    event ∈ marginTimeline perpBars spotBars settlements ↔
      (∃ e ∈ perpBars.entries, ∃ bar ∈ e.2, event = .perpBar e.1 bar) ∨
      (∃ e ∈ spotBars.entries, ∃ bar ∈ e.2, event = .spotBar e.1 bar) ∨
      ∃ f ∈ settlements, event = .funding f := by
  rw [marginTimeline, (List.perm_insertionSort timelineLe _).mem_iff, List.mem_append,
    List.mem_append, or_assoc]
  simp only [List.mem_flatMap, List.mem_map, eq_comm]

theorem marginTimeline_inRange (hbars : ∀ e ∈ perpBars.entries, ∀ bar ∈ e.2, bar.InRange) :
    ∀ event ∈ marginTimeline perpBars spotBars settlements, event.InRange := by
  intro event hevent
  rcases mem_marginTimeline.mp hevent
    with ⟨e, he, bar, hbar, rfl⟩ | ⟨e, he, bar, hbar, rfl⟩ | ⟨f, _, rfl⟩
  · exact hbars e he bar hbar
  · trivial
  · trivial

/-- The account is never in breach exactly if it is covered at entry and every event meets its
condition. -/
theorem never_in_breach_iff (hmode : params.marginMode = .cross) (h0 : 0 < params.mmPct)
    (h1 : params.mmPct < 1) (hids : (perps.map (·.id)).Nodup) (hsized : ∀ p ∈ perps, p.Sized)
    (hbars : ∀ e ∈ perpBars.entries, ∀ bar ∈ e.2, bar.InRange) :
    NeverInBreach params initial perps spotLegs (marginTimeline perpBars spotBars settlements) ↔
      CoveredThroughout params initial perps spotLegs
        (marginTimeline perpBars spotBars settlements) := by
  have hinRange : ∀ event ∈ marginTimeline perpBars spotBars settlements, event.InRange :=
    marginTimeline_inRange hbars
  generalize marginTimeline perpBars spotBars settlements = timeline at hinRange
  have hstart := marginStart_account hids initial spotLegs
  -- one event after a prefix that left the account covered
  have hstep : ∀ before event after s, timeline = before ++ event :: after →
      marginRun params spotLegs (marginStart initial perps spotLegs) before = .ok s →
      s.Covered params spotLegs → ∃ s',
        marginRun params spotLegs (marginStart initial perps spotLegs)
        (before ++ [event]) = .ok s' ∧ (s'.Covered params spotLegs ↔
          (s.openPerps ≠ [] → EventCovered params spotLegs s event)) := by
    intro before event after s htimeline hrun hcov
    have hacc := hstart.moves (marginRun_moves hrun)
    obtain ⟨s', hs', hiff⟩ := step_covered_iff hmode
      (hinRange event (htimeline ▸ List.mem_append_right _ List.mem_cons_self)) h0 h1 hacc.openIds
      (fun p hp => hsized p (hacc.isOpen p hp)) hcov
    refine ⟨s', ?_, hiff⟩
    rw [marginRun_append, hrun, ok_bind, marginRun, List.foldlM_cons, hs']
    rfl
  constructor
  · intro hnever
    constructor
    · obtain ⟨s, hs, hcov⟩ := hnever [] timeline rfl
      cases hs
      exact hcov
    · intro before event after s htimeline hrun hopen
      obtain ⟨s₀, hs₀, hcov₀⟩ := hnever before (event :: after) htimeline
      rw [hrun] at hs₀
      cases hs₀
      obtain ⟨s', hs', hiff⟩ := hstep before event after s htimeline hrun hcov₀
      obtain ⟨s'', hs'', hcov''⟩ := hnever (before ++ [event]) after
        (by rw [htimeline, List.append_assoc, List.singleton_append])
      rw [hs'] at hs''
      cases hs''
      exact hiff.mp hcov'' hopen
  · intro hcond before
    induction before using List.reverseRecOn with
    | nil => exact fun _ _ => ⟨_, rfl, hcond.entry⟩
    | append_singleton before event ih =>
      intro after htimeline
      rw [List.append_assoc, List.singleton_append] at htimeline
      obtain ⟨s, hrun, hcov⟩ := ih (event :: after) htimeline
      obtain ⟨s', hs', hiff⟩ := hstep before event after s htimeline hrun hcov
      exact ⟨s', hs', hiff.mpr (hcond.events before event after s htimeline hrun)⟩

end Walk

/-- A long of 10000 USDT in ETH. -/
def hedgedPerps : List PerpPosition := [⟨"A", "ETH", .long, 10_000, 10, 1000, 0, by decide⟩]

/-- One BTC as its collateral. -/
def hedgedLegs : List SpotLeg := [⟨"BTC", 1, 100, 0⟩]

/-- BTC falls from 100 to 90. -/
def hedgedSpotBars : Dict String (List PriceBar) := Dict.empty.set "BTC" [⟨1, 100, 90, 90⟩]

/-- The fall of the collateral leaves the account in breach, and the perp is reported as
survived. -/
theorem spot_bar_leaves_breach :
    (∃ r, simulatePositionPath 0 hedgedPerps hedgedLegs .empty hedgedSpotBars [] = .ok r ∧
      r.survived.get? "A" = some true) ∧
    ¬ NeverInBreach {} 0 hedgedPerps hedgedLegs (marginTimeline .empty hedgedSpotBars []) := by
  refine ⟨⟨_, rfl, by decide +kernel⟩, fun hnever => ?_⟩
  obtain ⟨s, hs, hcov⟩ :=
    hnever (marginTimeline .empty hedgedSpotBars []) [] (List.append_nil _).symm
  have hrun : (marginRun {} hedgedLegs (marginStart 0 hedgedPerps hedgedLegs)
      (marginTimeline .empty hedgedSpotBars [])).toOption.map (fun s =>
        decide (s.openPerps ≠ [] ∧ s.headroom {} hedgedLegs < 0)) = some true := by
    decide +kernel
  rw [hs] at hrun
  obtain ⟨hopen, hneg⟩ := of_decide_eq_true (Option.some.inj hrun)
  exact absurd ((covered_iff.mp hcov).resolve_left hopen) (not_le.mpr hneg)

theorem never_in_breach_iff_hedged :
    NeverInBreach {} 0 hedgedPerps hedgedLegs (marginTimeline .empty hedgedSpotBars []) ↔
      CoveredThroughout {} 0 hedgedPerps hedgedLegs (marginTimeline .empty hedgedSpotBars []) :=
  never_in_breach_iff rfl (by decide +kernel) (by decide +kernel) (by decide)
    (by intro p hp; rw [List.mem_singleton.mp hp]; constructor <;> decide +kernel)
    (by intro e he; cases he)

end P300
