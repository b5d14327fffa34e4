import P300.Margin.Breach

/-!
# The checks of a walk

Each perp that a sweep or a bar comes to is checked once, at a mark and in the state that the checks
before it left. A check finds the margin of its perp sufficient or breached, and only a breach moves
cash. So the liquidations of a walk are the breaches of its checks, in their order.
-/

namespace P300

/-! ## A check -/

/-- What a check of `pos` at `mark` finds: no breach, or the reason of a liquidation. -/
def breach (params : SimParams) (spotLegs : List SpotLeg) (s : MarginState) (pos : PerpPosition)
    (mark : ℚ) : Except String (Option LiquidationReason) :=
  if pos ∉ s.openPerps then .ok none
  else match params.marginMode with
  | .isolated => (isolatedPositionHealth pos mark params.mmPct).map fun health =>
    if health.1 < health.2 then some (.isoBreach health.1 health.2) else none
  | .cross =>
    let testMarks := s.perpMarks.set pos.id mark
    let pool := crossMarginPool s.cash s.openPerps testMarks spotLegs s.spotMarks params.spotHaircut
    let required := requiredMaintenanceMargin s.openPerps testMarks params.mmPct
    .ok (if pool < required then some (.crossBreach pool required) else none)

/-- A check liquidates if it finds a breach, and else leaves the state. -/
theorem liquidateOneIfBreached_eq (params : SimParams) (spotLegs : List SpotLeg)
    (pos : PerpPosition) (ts : Time) (mark : ℚ) (s : MarginState) :
    liquidateOneIfBreached params spotLegs pos ts mark s =
      (breach params spotLegs s pos mark).map fun found =>
        found.elim s fun reason => doLiquidate params pos ts mark reason s := by
  rw [liquidateOneIfBreached, breach]
  by_cases hopen : pos ∉ s.openPerps
  · rw [if_pos hopen, if_pos hopen]
    rfl
  rw [if_neg hopen, if_neg hopen]
  cases params.marginMode with
  | isolated =>
    dsimp only
    cases isolatedPositionHealth pos mark params.mmPct with
    | error e => rfl
    | ok health =>
      by_cases hbreach : health.1 < health.2
      · change (if health.1 < health.2 then Except.ok _ else Except.ok _) =
          Except.ok (Option.elim (if health.1 < health.2 then _ else _) _ _)
        rw [if_pos hbreach, if_pos hbreach]
        rfl
      · change (if health.1 < health.2 then Except.ok _ else Except.ok _) =
          Except.ok (Option.elim (if health.1 < health.2 then _ else _) _ _)
        rw [if_neg hbreach, if_neg hbreach]
        rfl
  | cross =>
    dsimp only
    split <;> rfl

/-- A check: the state that it finds, the perp, its time and mark. -/
structure MarginCheck where
  state : MarginState
  pos : PerpPosition
  ts : Time
  mark : ℚ

namespace MarginCheck

def breach (params : SimParams) (spotLegs : List SpotLeg) (c : MarginCheck) :
    Except String (Option LiquidationReason) :=
  P300.breach params spotLegs c.state c.pos c.mark

/-- The profit of the perp at the mark. -/
def pnl (c : MarginCheck) : ℚ := perpUnrealizedPnl c.pos c.mark

def fee (params : SimParams) (c : MarginCheck) : ℚ :=
  |c.pos.qty| * c.mark * params.liquidationFeePct

/-- The liquidation of a check that finds a breach. -/
def liquidation (params : SimParams) (spotLegs : List SpotLeg) (c : MarginCheck) :
    Option LiquidationEvent :=
  match c.breach params spotLegs with
  | .ok (some reason) =>
    some ⟨c.pos.id, c.ts, c.mark, |c.pnl| + c.fee params, c.fee params, reason⟩
  | _ => none

/-- What the check moves into the cash. -/
def realized (params : SimParams) (spotLegs : List SpotLeg) (c : MarginCheck) : ℚ :=
  match c.breach params spotLegs with
  | .ok (some _) => c.pnl - c.fee params
  | _ => 0

/-- The check finds a breach. -/
def Breached (params : SimParams) (spotLegs : List SpotLeg) (c : MarginCheck) : Prop :=
  ∃ reason, c.breach params spotLegs = .ok (some reason)

theorem liquidation_eq_none_iff {params : SimParams} {spotLegs : List SpotLeg} {c : MarginCheck} :
    c.liquidation params spotLegs = none ↔ ¬ c.Breached params spotLegs := by
  rw [liquidation, Breached]
  rcases c.breach params spotLegs with e | found | reason
  · exact iff_of_true rfl fun ⟨_, h⟩ => by cases h
  · exact iff_of_true rfl fun ⟨_, h⟩ => by cases h
  · exact iff_of_false (fun h => by cases h) fun h => h ⟨reason, rfl⟩

end MarginCheck

/-! ## The checks of an event and of a walk -/

section Checks

variable (params : SimParams) (spotLegs : List SpotLeg)

/-- The checks of a loop over perps, where `look` gives the mark at which a perp is checked. -/
def loopChecks (f : MarginState → PerpPosition → Except String MarginState) (ts : Time)
    (look : MarginState → PerpPosition → ℚ) : List PerpPosition → MarginState → List MarginCheck
  | [], _ => []
  | pos :: l, s => ⟨s, pos, ts, look s pos⟩ :: match f s pos with
    | .ok s' => loopChecks f ts look l s'
    | .error _ => []

/-- The checks of an event. -/
def eventChecks (s : MarginState) (event : MarginEvent) : List MarginCheck :=
  if s.openPerps = [] then []
  else match event with
  | .funding f =>
    let s := s.openPerps.foldl (payFunding f) s
    loopChecks (fun s pos => liquidateOneIfBreached params spotLegs pos f.ts
      (perpMark s.perpMarks pos) s)
      f.ts (fun s pos => perpMark s.perpMarks pos) s.openPerps s
  | .perpBar asset bar =>
    loopChecks (checkInBar params spotLegs bar) bar.ts (fun _ pos => adverseMark pos bar)
      (s.openPerps.filter fun p => p.asset = asset) { s with barsProcessed := s.barsProcessed + 1 }
  | .spotBar _ _ => []

/-- The checks of a walk, in their order. -/
def walkChecks : MarginState → List MarginEvent → List MarginCheck
  | _, [] => []
  | s, event :: events => eventChecks params spotLegs s event ++
    match s.step params spotLegs event with
    | .ok s' => walkChecks s' events
    | .error _ => []

end Checks

/-! ## What the checks account for -/

variable {params : SimParams} {spotLegs : List SpotLeg} {s s' s'' : MarginState}
  {checks checks' : List MarginCheck}

/-- The liquidations and the cash of a walk from `s` to `s'` are those of its checks. -/
structure AccountedBy (params : SimParams) (spotLegs : List SpotLeg) (checks : List MarginCheck)
    (s s' : MarginState) : Prop where
  liquidations : s'.liquidations =
    s.liquidations ++ checks.filterMap (·.liquidation params spotLegs)
  cash : s'.cash + s'.fundingPaidTotal =
    s.cash + s.fundingPaidTotal + (checks.map (·.realized params spotLegs)).sum

theorem AccountedBy.nil (hliq : s'.liquidations = s.liquidations)
    (hcash : s'.cash + s'.fundingPaidTotal = s.cash + s.fundingPaidTotal) :
    AccountedBy params spotLegs [] s s' :=
  ⟨hliq.trans (List.append_nil _).symm, hcash.trans (add_zero _).symm⟩

theorem AccountedBy.append (h : AccountedBy params spotLegs checks s s')
    (h' : AccountedBy params spotLegs checks' s' s'') :
    AccountedBy params spotLegs (checks ++ checks') s s'' := by
  constructor
  · rw [h'.liquidations, h.liquidations, List.filterMap_append, List.append_assoc]
  · rw [h'.cash, h.cash, List.map_append, List.sum_append, add_assoc]

/-- Nothing was liquidated exactly if no check finds a breach. -/
theorem AccountedBy.liquidations_eq_iff (h : AccountedBy params spotLegs checks s s') :
    s'.liquidations = s.liquidations ↔ ∀ c ∈ checks, ¬ c.Breached params spotLegs := by
  rw [h.liquidations, List.append_right_eq_self, List.filterMap_eq_nil_iff]
  simp only [MarginCheck.liquidation_eq_none_iff]

/-- One check. -/
theorem accountedBy_check {pos : PerpPosition} {ts : Time} {mark : ℚ}
    (h : liquidateOneIfBreached params spotLegs pos ts mark s = .ok s') :
    AccountedBy params spotLegs [⟨s, pos, ts, mark⟩] s s' := by
  rw [liquidateOneIfBreached_eq] at h
  cases hfound : breach params spotLegs s pos mark with
  | error e =>
    rw [hfound] at h
    cases h
  | ok found =>
    rw [hfound] at h
    have hcheck : (⟨s, pos, ts, mark⟩ : MarginCheck).breach params spotLegs = .ok found := hfound
    cases found with
    | none =>
      cases h
      constructor
      · rw [List.filterMap_cons, MarginCheck.liquidation, hcheck]
        exact (List.append_nil _).symm
      · rw [List.map_singleton, List.sum_singleton, MarginCheck.realized, hcheck]
        exact (add_zero _).symm
    | some reason =>
      cases h
      constructor
      · rw [List.filterMap_cons, MarginCheck.liquidation, hcheck]
        rfl
      · rw [List.map_singleton, List.sum_singleton, MarginCheck.realized, hcheck]
        change s.cash + (perpUnrealizedPnl pos mark - _) + s.fundingPaidTotal = _
        rw [add_right_comm]
        rfl

theorem accountedBy_checkInBar {bar : PriceBar} {pos : PerpPosition}
    (h : checkInBar params spotLegs bar s pos = .ok s') :
    AccountedBy params spotLegs [⟨s, pos, bar.ts, adverseMark pos bar⟩] s s' := by
  obtain ⟨s₁, h₁, h⟩ := of_bind_ok h
  have hcheck := accountedBy_check h₁
  split at h
  · cases h
    exact ⟨hcheck.liquidations, hcheck.cash⟩
  · cases h
    exact hcheck

theorem accountedBy_loop {f : MarginState → PerpPosition → Except String MarginState} (ts : Time)
    {look : MarginState → PerpPosition → ℚ}
    (hf : ∀ {s pos s'}, f s pos = .ok s' →
      AccountedBy params spotLegs [⟨s, pos, ts, look s pos⟩] s s')
    {l : List PerpPosition} (h : l.foldlM f s = .ok s') :
    AccountedBy params spotLegs (loopChecks f ts look l s) s s' := by
  induction l generalizing s with
  | nil =>
    cases h
    exact .nil rfl rfl
  | cons pos l ih =>
    rw [List.foldlM_cons] at h
    obtain ⟨s₁, h₁, h⟩ := of_bind_ok h
    rw [loopChecks, h₁]
    exact (hf h₁).append (ih h)

theorem foldl_payFunding_account (f : FundingSettlement) (l : List PerpPosition) (s : MarginState) :
    (l.foldl (payFunding f) s).liquidations = s.liquidations ∧
    (l.foldl (payFunding f) s).cash + (l.foldl (payFunding f) s).fundingPaidTotal =
      s.cash + s.fundingPaidTotal := by
  induction l generalizing s with
  | nil => exact ⟨rfl, rfl⟩
  | cons pos l ih =>
    obtain ⟨hliq, hcash⟩ := ih (payFunding f s pos)
    rw [List.foldl_cons, hliq, hcash, payFunding]
    split
    · exact ⟨rfl, rfl⟩
    · exact ⟨rfl, by ring⟩

theorem accountedBy_step {event : MarginEvent} (h : s.step params spotLegs event = .ok s') :
    AccountedBy params spotLegs (eventChecks params spotLegs s event) s s' := by
  unfold MarginState.step at h
  unfold eventChecks
  split at h
  · next hnone =>
    cases h
    rw [if_pos hnone]
    exact .nil rfl rfl
  next hopen =>
  rw [if_neg hopen]
  cases event with
  | funding f =>
    obtain ⟨hliq, hcash⟩ := foldl_payFunding_account f s.openPerps s
    have hsweep := accountedBy_loop f.ts (fun h => accountedBy_check h) h
    exact ⟨hsweep.liquidations.trans (by rw [hliq]), hsweep.cash.trans (by rw [hcash])⟩
  | perpBar asset bar =>
    have hbar := accountedBy_loop bar.ts (fun h => accountedBy_checkInBar h) h
    exact ⟨hbar.liquidations, hbar.cash⟩
  | spotBar asset bar =>
    cases h
    exact .nil rfl rfl

/-- The liquidations of a walk are the breaches of its checks. -/
theorem accountedBy_run {events : List MarginEvent}
    (h : marginRun params spotLegs s events = .ok s') :
    AccountedBy params spotLegs (walkChecks params spotLegs s events) s s' := by
  induction events generalizing s with
  | nil =>
    cases h
    exact .nil rfl rfl
  | cons event events ih =>
    rw [marginRun, List.foldlM_cons] at h
    obtain ⟨s₁, h₁, h⟩ := of_bind_ok h
    rw [walkChecks, h₁]
    exact (accountedBy_step h₁).append (ih h)

/-! ## Loops without a breach -/

/-- The body of a loop of checks does `g` where its check finds no breach, and a check that raises
ends the loop. -/
structure Checking (params : SimParams) (spotLegs : List SpotLeg)
    (f : MarginState → PerpPosition → Except String MarginState)
    (look : MarginState → PerpPosition → ℚ)
    (g : MarginState → PerpPosition → MarginState) : Prop where
  of_none : ∀ s pos, breach params spotLegs s pos (look s pos) = .ok none → f s pos = .ok (g s pos)
  of_error : ∀ s pos e, breach params spotLegs s pos (look s pos) = .error e → f s pos = .error e

section Checking

variable {f : MarginState → PerpPosition → Except String MarginState}
  {look : MarginState → PerpPosition → ℚ} {g : MarginState → PerpPosition → MarginState}

theorem liquidateOneIfBreached_of_none {pos : PerpPosition} {mark : ℚ}
    (h : breach params spotLegs s pos mark = .ok none) (ts : Time) :
    liquidateOneIfBreached params spotLegs pos ts mark s = .ok s := by
  rw [liquidateOneIfBreached_eq, h]
  rfl

theorem liquidateOneIfBreached_of_error {pos : PerpPosition} {mark : ℚ} {e : String}
    (h : breach params spotLegs s pos mark = .error e) (ts : Time) :
    liquidateOneIfBreached params spotLegs pos ts mark s = .error e := by
  rw [liquidateOneIfBreached_eq, h]
  rfl

/-- Marking a perp at the close, if it is open. -/
def markAtClose (bar : PriceBar) (s : MarginState) (pos : PerpPosition) : MarginState :=
  if pos ∈ s.openPerps then { s with perpMarks := s.perpMarks.set pos.id bar.close } else s

theorem checking_sweep (ts : Time) : Checking params spotLegs
    (fun s pos => liquidateOneIfBreached params spotLegs pos ts (perpMark s.perpMarks pos) s)
    (fun s pos => perpMark s.perpMarks pos) fun s _ => s where
  of_none _ _ h := liquidateOneIfBreached_of_none h ts
  of_error _ _ _ h := liquidateOneIfBreached_of_error h ts

theorem checking_bar (bar : PriceBar) : Checking params spotLegs (checkInBar params spotLegs bar)
    (fun _ pos => adverseMark pos bar) (markAtClose bar) where
  of_none s pos h := by
    rw [checkInBar, liquidateOneIfBreached_of_none h, ok_bind, markAtClose]
    split <;> rfl
  of_error s pos e h := by
    rw [checkInBar, liquidateOneIfBreached_of_error h, error_bind]

theorem Checking.loop (hf : Checking params spotLegs f look g) {ts : Time} {l : List PerpPosition}
    {s : MarginState} (h : ∀ c ∈ loopChecks f ts look l s, c.breach params spotLegs = .ok none) :
    l.foldlM f s = .ok (l.foldl g s) := by
  induction l generalizing s with
  | nil => rfl
  | cons pos l ih =>
    have hstep := hf.of_none s pos (h _ List.mem_cons_self)
    rw [loopChecks, hstep] at h
    rw [List.foldlM_cons, hstep, List.foldl_cons]
    exact ih fun c hc => h c (List.mem_cons_of_mem _ hc)

/-- A loop that returns has no check that raises. -/
theorem Checking.no_breach (hf : Checking params spotLegs f look g) {ts : Time}
    {l : List PerpPosition} {s s' : MarginState} (h : l.foldlM f s = .ok s')
    (hnone : ∀ c ∈ loopChecks f ts look l s, ¬ c.Breached params spotLegs) :
    ∀ c ∈ loopChecks f ts look l s, c.breach params spotLegs = .ok none := by
  induction l generalizing s with
  | nil => exact fun c hc => by cases hc
  | cons pos l ih =>
    rw [List.foldlM_cons] at h
    obtain ⟨s₁, h₁, h⟩ := of_bind_ok h
    rw [loopChecks, h₁] at hnone ⊢
    obtain ⟨hcheck, hnone⟩ := List.forall_mem_cons.mp hnone
    refine List.forall_mem_cons.mpr ⟨?_, ih h hnone⟩
    rcases hfound : MarginCheck.breach params spotLegs ⟨s, pos, ts, look s pos⟩
      with e | found | reason
    · rw [hf.of_error s pos e hfound] at h₁
      cases h₁
    · rfl
    · exact absurd ⟨reason, hfound⟩ hcheck

end Checking

end P300
