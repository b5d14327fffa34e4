import P300.Lib.Until
import P300.Margin.Checks

/-!
# More cash

Two walks in cross mode over one timeline that differ in their initial cash. As long as the poorer
one has no breach, the pool of the richer one exceeds its pool by the difference in cash, and all
else is the same: so the first breach of the richer walk is not earlier.
-/

namespace P300

/-- The state with `d` more cash. -/
def MarginState.addCash (d : ℚ) (s : MarginState) : MarginState := { s with cash := s.cash + d }

/-- The check in the state with `d` more cash. -/
def MarginCheck.addCash (d : ℚ) (c : MarginCheck) : MarginCheck :=
  { c with state := c.state.addCash d }

section Step

variable {params : SimParams} {spotLegs : List SpotLeg} {s s' : MarginState} {d : ℚ}

theorem crossMarginPool_add (cash d : ℚ) (perps : List PerpPosition)
    (perpMarks spotMarks : Dict String ℚ) (haircut : ℚ) :
    crossMarginPool (cash + d) perps perpMarks spotLegs spotMarks haircut =
      crossMarginPool cash perps perpMarks spotLegs spotMarks haircut + d := by
  rw [crossMarginPool, crossMarginPool, foldl_add, foldl_add, foldl_add, foldl_add]
  ring

/-- A check in cross mode returns. -/
theorem breach_cross (hmode : params.marginMode = .cross) (s : MarginState) (pos : PerpPosition)
    (mark : ℚ) : ∃ found, breach params spotLegs s pos mark = .ok found := by
  rw [breach, hmode]
  split
  · exact ⟨none, rfl⟩
  · exact ⟨_, rfl⟩

/-- What is no breach with the cash is none with more cash. -/
theorem breach_addCash (hmode : params.marginMode = .cross) (hd : 0 ≤ d)
    {pos : PerpPosition} {mark : ℚ} (h : breach params spotLegs s pos mark = .ok none) :
    breach params spotLegs (s.addCash d) pos mark = .ok none := by
  rw [breach, hmode] at h ⊢
  by_cases hopen : pos ∉ s.openPerps
  · exact if_pos hopen
  rw [if_neg hopen] at h
  refine (if_neg hopen).trans ?_
  dsimp only at h ⊢
  split at h
  · cases h
  · next hpool =>
    rw [if_neg]
    change ¬ crossMarginPool (s.cash + d) s.openPerps _ spotLegs s.spotMarks params.spotHaircut < _
    rw [crossMarginPool_add, not_lt]
    exact (not_lt.mp hpool).trans (le_add_of_nonneg_right hd)

theorem not_breached_iff (hmode : params.marginMode = .cross) {c : MarginCheck} :
    ¬ c.Breached params spotLegs ↔ c.breach params spotLegs = .ok none := by
  obtain ⟨found, hfound⟩ := @breach_cross params spotLegs hmode c.state c.pos c.mark
  have hcheck : c.breach params spotLegs = .ok found := hfound
  rw [MarginCheck.Breached, hcheck]
  cases found with
  | none =>
    refine iff_of_true (fun hbreached => ?_) rfl
    obtain ⟨_, h⟩ := hbreached
    cases h
  | some reason => exact iff_of_false (fun h => h ⟨reason, rfl⟩) fun h => by cases h

theorem not_breached_addCash (hmode : params.marginMode = .cross) (hd : 0 ≤ d) {c : MarginCheck}
    (h : ¬ c.Breached params spotLegs) : ¬ (c.addCash d).Breached params spotLegs := by
  have hnone : breach params spotLegs c.state c.pos c.mark = .ok none :=
    (not_breached_iff hmode).mp h
  have hmore : (c.addCash d).breach params spotLegs =
      breach params spotLegs (c.state.addCash d) c.pos c.mark := rfl
  rw [not_breached_iff hmode, hmore]
  exact breach_addCash hmode hd hnone

/-! ## A loop of checks -/

/-- After a check without a breach the loop's body leaves states that still differ in cash only. -/
structure RespectsCash (params : SimParams) (spotLegs : List SpotLeg) (d : ℚ)
    (f : MarginState → PerpPosition → Except String MarginState)
    (look : MarginState → PerpPosition → ℚ) : Prop where
  mark : ∀ s pos, look (s.addCash d) pos = look s pos
  keeps : ∀ s pos, breach params spotLegs s pos (look s pos) = .ok none →
    ∃ s', f s pos = .ok s' ∧ f (s.addCash d) pos = .ok (s'.addCash d)

variable {f : MarginState → PerpPosition → Except String MarginState}
  {look : MarginState → PerpPosition → ℚ}

/-- Without a breach the loop leaves states that differ in cash only. -/
theorem RespectsCash.loop (hmode : params.marginMode = .cross)
    (hf : RespectsCash params spotLegs d f look) {ts : Time} {l : List PerpPosition}
    {s : MarginState} (hnone : ∀ c ∈ loopChecks f ts look l s, ¬ c.Breached params spotLegs) :
    ∃ s', l.foldlM f s = .ok s' ∧ l.foldlM f (s.addCash d) = .ok (s'.addCash d) := by
  induction l generalizing s with
  | nil => exact ⟨s, rfl, rfl⟩
  | cons pos l ih =>
    have hcheck := (not_breached_iff hmode).mp (hnone _ List.mem_cons_self)
    obtain ⟨s₁, h₁, h₁'⟩ := hf.keeps s pos hcheck
    rw [loopChecks, h₁] at hnone
    rw [List.foldlM_cons, List.foldlM_cons, h₁, h₁']
    exact ih fun c hc => hnone c (List.mem_cons_of_mem _ hc)

theorem RespectsCash.loopChecks (hmode : params.marginMode = .cross)
    (hf : RespectsCash params spotLegs d f look) (ts : Time) (l : List PerpPosition)
    (s : MarginState) :
    AgreeUntil (·.Breached params spotLegs) (·.addCash d) (loopChecks f ts look l s)
      (loopChecks f ts look l (s.addCash d)) := by
  induction l generalizing s with
  | nil => exact .nil
  | cons pos l ih =>
    rw [P300.loopChecks, P300.loopChecks, hf.mark]
    by_cases hcheck : (⟨s, pos, ts, look s pos⟩ : MarginCheck).Breached params spotLegs
    · exact .stop _ _ hcheck
    · obtain ⟨s₁, h₁, h₁'⟩ := hf.keeps s pos ((not_breached_iff hmode).mp hcheck)
      rw [h₁, h₁']
      exact .cons _ (ih s₁)

/-! ## An event -/

theorem respectsCash_sweep (hmode : params.marginMode = .cross) (hd : 0 ≤ d) (ts : Time) :
    RespectsCash params spotLegs d
      (fun s pos => liquidateOneIfBreached params spotLegs pos ts (perpMark s.perpMarks pos) s)
      fun s pos => perpMark s.perpMarks pos where
  mark _ _ := rfl
  keeps s _ h := ⟨s, liquidateOneIfBreached_of_none h ts,
    liquidateOneIfBreached_of_none (breach_addCash hmode hd h) ts⟩

theorem respectsCash_bar (hmode : params.marginMode = .cross) (hd : 0 ≤ d) (bar : PriceBar) :
    RespectsCash params spotLegs d (checkInBar params spotLegs bar) fun _ pos =>
      adverseMark pos bar where
  mark _ _ := rfl
  keeps s pos h := by
    rw [checkInBar, checkInBar, liquidateOneIfBreached_of_none h,
      liquidateOneIfBreached_of_none (breach_addCash hmode hd h), ok_bind, ok_bind]
    by_cases hopen : pos ∈ s.openPerps
    · rw [if_pos hopen]
      exact ⟨_, rfl, if_pos hopen⟩
    · rw [if_neg hopen]
      exact ⟨_, rfl, if_neg hopen⟩

theorem foldl_payFunding_addCash (f : FundingSettlement) (l : List PerpPosition)
    (s : MarginState) (d : ℚ) :
    l.foldl (payFunding f) (s.addCash d) = (l.foldl (payFunding f) s).addCash d := by
  induction l generalizing s with
  | nil => rfl
  | cons pos l ih =>
    have hpay : payFunding f (s.addCash d) pos = (payFunding f s pos).addCash d := by
      rw [payFunding, payFunding]
      split
      · rfl
      · simp only [MarginState.addCash, add_sub_right_comm s.cash d (fundingPayment pos f.rate)]
    rw [List.foldl_cons, List.foldl_cons, hpay, ih]

theorem eventChecks_addCash (hmode : params.marginMode = .cross) (hd : 0 ≤ d) (s : MarginState)
    (event : MarginEvent) : AgreeUntil (·.Breached params spotLegs) (·.addCash d)
      (eventChecks params spotLegs s event) (eventChecks params spotLegs (s.addCash d) event) := by
  unfold eventChecks
  by_cases hopen : s.openPerps = []
  · rw [if_pos hopen, if_pos (show (s.addCash d).openPerps = [] from hopen)]
    exact .nil
  rw [if_neg hopen, if_neg (show ¬ (s.addCash d).openPerps = [] from hopen)]
  cases event with
  | funding f =>
    dsimp only
    rw [show (s.addCash d).openPerps = s.openPerps from rfl, foldl_payFunding_addCash]
    exact (respectsCash_sweep hmode hd f.ts).loopChecks hmode f.ts _ _
  | perpBar asset bar => exact (respectsCash_bar hmode hd bar).loopChecks hmode bar.ts _ _
  | spotBar asset bar => exact .nil

/-- Without a breach an event leaves states that differ in cash only. -/
theorem step_addCash (hmode : params.marginMode = .cross) (hd : 0 ≤ d) {event : MarginEvent}
    (hnone : ∀ c ∈ eventChecks params spotLegs s event, ¬ c.Breached params spotLegs) :
    ∃ s', s.step params spotLegs event = .ok s' ∧
      (s.addCash d).step params spotLegs event = .ok (s'.addCash d) := by
  unfold eventChecks at hnone
  unfold MarginState.step
  by_cases hopen : s.openPerps = []
  · rw [if_pos hopen, if_pos (show (s.addCash d).openPerps = [] from hopen)]
    exact ⟨s, rfl, rfl⟩
  rw [if_neg hopen] at hnone
  rw [if_neg hopen, if_neg (show ¬ (s.addCash d).openPerps = [] from hopen)]
  cases event with
  | funding f =>
    dsimp only
    rw [show (s.addCash d).openPerps = s.openPerps from rfl, foldl_payFunding_addCash]
    exact (respectsCash_sweep hmode hd f.ts).loop hmode hnone
  | perpBar asset bar => exact (respectsCash_bar hmode hd bar).loop hmode hnone
  | spotBar asset bar => exact ⟨_, rfl, rfl⟩

end Step

/-! ## A walk -/

section Walk

variable {params : SimParams} {spotLegs : List SpotLeg} {d : ℚ}

/-- A walk in cross mode returns. -/
theorem marginRun_returns (hmode : params.marginMode = .cross) (events : List MarginEvent)
    (s : MarginState) : ∃ s', marginRun params spotLegs s events = .ok s' := by
  have hcheck : ∀ s pos ts mark, ∃ s', liquidateOneIfBreached params spotLegs pos ts mark s =
      .ok s' := by
    intro s pos ts mark
    obtain ⟨found, hfound⟩ := @breach_cross params spotLegs hmode s pos mark
    rw [liquidateOneIfBreached_eq, hfound]
    exact ⟨_, rfl⟩
  refine foldlM_ok (fun s event _ => ?_) s
  unfold MarginState.step
  split
  · exact ⟨s, rfl⟩
  cases event with
  | funding f => exact foldlM_ok (fun s pos _ => hcheck ..) _
  | perpBar asset bar =>
    refine foldlM_ok (fun s pos _ => ?_) _
    obtain ⟨s₁, h₁⟩ := hcheck s pos bar.ts (adverseMark pos bar)
    rw [checkInBar, h₁, ok_bind]
    split
    · exact ⟨_, rfl⟩
    · exact ⟨_, rfl⟩
  | spotBar asset bar => exact ⟨_, rfl⟩

theorem walkChecks_addCash (hmode : params.marginMode = .cross) (hd : 0 ≤ d)
    (events : List MarginEvent) (s : MarginState) : AgreeUntil (·.Breached params spotLegs)
    (·.addCash d)
      (walkChecks params spotLegs s events) (walkChecks params spotLegs (s.addCash d) events) := by
  induction events generalizing s with
  | nil => exact .nil
  | cons event events ih =>
    rw [walkChecks, walkChecks]
    refine (eventChecks_addCash hmode hd s event).append fun hnone => ?_
    obtain ⟨s', hs', hrich⟩ := step_addCash hmode hd hnone
    rw [hs', hrich]
    exact ih s'

/-- A walk without a liquidation and the walk with more cash end in states that differ in cash
only. -/
theorem marginRun_addCash (hmode : params.marginMode = .cross) (hd : 0 ≤ d)
    {events : List MarginEvent} {s s' : MarginState}
    (h : marginRun params spotLegs s events = .ok s') (hnone : s'.liquidations = s.liquidations) :
    marginRun params spotLegs (s.addCash d) events = .ok (s'.addCash d) := by
  have hchecks := (accountedBy_run h).liquidations_eq_iff.mp hnone
  clear hnone
  induction events generalizing s with
  | nil =>
    cases h
    rfl
  | cons event events ih =>
    rw [walkChecks] at hchecks
    obtain ⟨hevent, hwalk⟩ := List.forall_mem_append.mp hchecks
    obtain ⟨s₁, h₁, hrich⟩ := step_addCash hmode hd hevent
    rw [marginRun, List.foldlM_cons, h₁, ok_bind] at h
    rw [h₁] at hwalk
    rw [marginRun, List.foldlM_cons, hrich, ok_bind]
    exact ih h hwalk

/-- What two walks promise that begin with `initial` and with `d` more cash. -/
structure FirstNoEarlier (params : SimParams) (initial d : ℚ) (perps : List PerpPosition)
    (spotLegs : List SpotLeg) (timeline : List MarginEvent) (r r' : SimulationResult) : Prop where
  none : r.liquidations = [] → r'.liquidations = []
  /-- Over events in which the poorer walk liquidates nothing, the richer one has the same marks and
  funding and no liquidation either: the states differ in cash only. -/
  events : ∀ before after, timeline = before ++ after →
    ∃ s s', marginRun params spotLegs (marginStart initial perps spotLegs) before = .ok s ∧
      marginRun params spotLegs (marginStart (initial + d) perps spotLegs) before = .ok s' ∧
      (s.liquidations = [] → s' = s.addCash d)
  /-- The same within an event, up to the check that finds the first breach. -/
  checks : ∀ before c after,
    walkChecks params spotLegs (marginStart initial perps spotLegs) timeline =
      before ++ c :: after →
    (∀ b ∈ before, ¬ b.Breached params spotLegs) →
    ∃ after', walkChecks params spotLegs (marginStart (initial + d) perps spotLegs) timeline =
        before.map (·.addCash d) ++ c.addCash d :: after' ∧
      ∀ b ∈ before, ¬ (b.addCash d).Breached params spotLegs

theorem more_cash_first_no_earlier (hmode : params.marginMode = .cross) {initial initial' : ℚ}
    (hcash : initial ≤ initial') (perps : List PerpPosition) (spotLegs : List SpotLeg)
    (perpBars spotBars : Dict String (List PriceBar)) (settlements : List FundingSettlement) :
    ∃ r r', simulatePositionPath initial perps spotLegs perpBars spotBars settlements params =
      .ok r ∧
      simulatePositionPath initial' perps spotLegs perpBars spotBars settlements params = .ok r' ∧
      FirstNoEarlier params initial (initial' - initial) perps spotLegs
        (marginTimeline perpBars spotBars settlements) r r' := by
  have hd := sub_nonneg.mpr hcash
  have hstart : marginStart (initial + (initial' - initial)) perps spotLegs =
    (marginStart initial perps spotLegs).addCash (initial' - initial) := rfl
  obtain ⟨s, hs⟩ := @marginRun_returns params spotLegs hmode
    (marginTimeline perpBars spotBars settlements) (marginStart initial perps spotLegs)
  obtain ⟨s', hs'⟩ := @marginRun_returns params spotLegs hmode
    (marginTimeline perpBars spotBars settlements) (marginStart initial' perps spotLegs)
  refine ⟨s.result, s'.result, by rw [simulatePositionPath, hs]; rfl,
    by rw [simulatePositionPath, hs']; rfl, fun hnone => ?_, fun before after htimeline => ?_,
    fun before c after hchecks hbefore => ?_⟩
  · have hrich := marginRun_addCash hmode hd hs hnone
    rw [← hstart, add_sub_cancel, hs'] at hrich
    cases hrich
    exact hnone
  · obtain ⟨t, ht⟩ := @marginRun_returns params spotLegs hmode before
      (marginStart initial perps spotLegs)
    obtain ⟨t', ht'⟩ := @marginRun_returns params spotLegs hmode before
      (marginStart (initial + (initial' - initial)) perps spotLegs)
    refine ⟨t, t', ht, ht', fun hnone => ?_⟩
    have hrich := marginRun_addCash hmode hd ht hnone
    rw [← hstart, ht'] at hrich
    exact Except.ok.inj hrich
  · obtain ⟨after', hafter'⟩ :=
      (@walkChecks_addCash params spotLegs _ hmode hd _ _).at_point hchecks
      hbefore
    exact ⟨after', hafter', fun b hb => not_breached_addCash hmode hd (hbefore b hb)⟩

theorem more_cash_first_no_earlier_pump :
    ∃ r r', simulatePositionPath 300 pumpPerps [] pumpBars .empty pumpSettlements = .ok r ∧
      simulatePositionPath 400 pumpPerps [] pumpBars .empty pumpSettlements = .ok r' ∧
      FirstNoEarlier {} 300 (400 - 300) pumpPerps []
      (marginTimeline pumpBars .empty pumpSettlements) r r' :=
  more_cash_first_no_earlier rfl (by decide +kernel) pumpPerps [] pumpBars .empty pumpSettlements

end Walk

end P300
