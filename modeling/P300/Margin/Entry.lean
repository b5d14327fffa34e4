import P300.Margin.Checks
import P300.Margin.Isolated

/-!
# Before the entry

No branch of the margin simulator reads `entry_time`. An event that is dated before every entry in
its asset is walked like any other: a settlement is charged and followed by a sweep, a bar is
checked and marked. The events can be left out exactly if each of them finds nothing to do when the
walk comes to it.
-/

namespace P300

/-! ## Early events -/

def MarginEvent.asset : MarginEvent → String
  | .perpBar asset _ => asset
  | .spotBar asset _ => asset
  | .funding f => f.asset

/-- An instant before the entry of all perps and of all spot legs in an asset. -/
def BeforeEntry (perps : List PerpPosition) (spotLegs : List SpotLeg) (asset : String)
    (ts : Time) : Prop :=
  (∀ p ∈ perps, p.asset = asset → ts < p.entryTime) ∧
    ∀ leg ∈ spotLegs, leg.asset = asset → ts < leg.entryTime

instance (perps : List PerpPosition) (spotLegs : List SpotLeg) (asset : String) (ts : Time) :
    Decidable (BeforeEntry perps spotLegs asset ts) := inferInstanceAs (Decidable (_ ∧ _))

/-- The bars of each asset from its first entry on. -/
def barsFromEntry (perps : List PerpPosition) (spotLegs : List SpotLeg)
    (bars : Dict String (List PriceBar)) : Dict String (List PriceBar) :=
  bars.mapValues fun asset l => l.filter fun bar => ¬ BeforeEntry perps spotLegs asset bar.ts

/-- The input without what is dated before the entries in its asset. -/
def MarginInput.fromEntry (a : MarginInput) : MarginInput :=
  { a with
    perpPriceBars := barsFromEntry a.perpPositions a.spotLegs a.perpPriceBars
    spotPriceBars := barsFromEntry a.perpPositions a.spotLegs a.spotPriceBars
    fundingSettlements := a.fundingSettlements.filter fun f =>
      ¬ BeforeEntry a.perpPositions a.spotLegs f.asset f.ts }

/-- The event is dated before the entries in its asset. -/
def MarginInput.Early (a : MarginInput) (event : MarginEvent) : Prop :=
  BeforeEntry a.perpPositions a.spotLegs event.asset event.ts

instance (a : MarginInput) : DecidablePred a.Early :=
  fun _ => inferInstanceAs (Decidable (BeforeEntry ..))

/-- The events of a list that are not early. -/
def MarginInput.kept (a : MarginInput) (events : List MarginEvent) : List MarginEvent :=
  events.filter fun event => ¬ a.Early event

theorem flatMap_barsFromEntry (a : MarginInput) {event : String → PriceBar → MarginEvent}
    (hasset : ∀ asset bar, (event asset bar).asset = asset)
    (hts : ∀ asset bar, (event asset bar).ts = bar.ts) (bars : Dict String (List PriceBar)) :
    ((barsFromEntry a.perpPositions a.spotLegs bars).entries.flatMap fun e => e.2.map (event e.1)) =
      a.kept (bars.entries.flatMap fun e => e.2.map (event e.1)) := by
  rw [barsFromEntry, Dict.mapValues, MarginInput.kept]
  dsimp only
  induction bars.entries with
  | nil => rfl
  | cons e entries ih =>
    rw [List.map_cons, List.flatMap_cons, List.flatMap_cons, List.filter_append, ih,
      List.filter_map]
    congr 2
    refine List.filter_congr fun bar _ => ?_
    simp only [Function.comp_apply, MarginInput.Early, hasset, hts]

theorem timeline_fromEntry (a : MarginInput) : a.fromEntry.timeline = a.kept a.timeline := by
  have hfunding : a.fromEntry.fundingSettlements.map MarginEvent.funding =
      a.kept (a.fundingSettlements.map MarginEvent.funding) := by
    rw [MarginInput.kept, List.filter_map]
    rfl
  rw [MarginInput.timeline, MarginInput.timeline, marginTimeline, marginTimeline, MarginInput.kept,
    Sorted.filter_insertionSort, List.filter_append, List.filter_append, hfunding]
  rw [show a.fromEntry.perpPriceBars =
    barsFromEntry a.perpPositions a.spotLegs a.perpPriceBars from rfl,
    show a.fromEntry.spotPriceBars =
      barsFromEntry a.perpPositions a.spotLegs a.spotPriceBars from rfl,
    flatMap_barsFromEntry a (fun _ _ => rfl) fun _ _ => rfl,
    flatMap_barsFromEntry a (fun _ _ => rfl) fun _ _ => rfl]
  rfl

/-! ## States of one account -/

/-- The states agree in all that a walk goes on with or reports, but for the number of bars. -/
structure SameAccount (spotLegs : List SpotLeg) (s t : MarginState) : Prop where
  cash : s.cash = t.cash
  openPerps : s.openPerps = t.openPerps
  closedPnl : s.closedPnl = t.closedPnl
  survived : s.survived = t.survived
  liquidations : s.liquidations = t.liquidations
  fundingPaidTotal : s.fundingPaidTotal = t.fundingPaidTotal
  perpMarks : ∀ id, s.perpMarks.get? id = t.perpMarks.get? id
  spotMarks : ∀ leg ∈ spotLegs, s.spotMarks.get? leg.asset = t.spotMarks.get? leg.asset

namespace SameAccount

variable {params : SimParams} {spotLegs : List SpotLeg} {s t u : MarginState}

theorem refl (s : MarginState) : SameAccount spotLegs s s :=
  ⟨rfl, rfl, rfl, rfl, rfl, rfl, fun _ => rfl, fun _ _ => rfl⟩

theorem symm (h : SameAccount spotLegs s t) : SameAccount spotLegs t s :=
  ⟨h.cash.symm, h.openPerps.symm, h.closedPnl.symm, h.survived.symm, h.liquidations.symm,
    h.fundingPaidTotal.symm, fun id => (h.perpMarks id).symm, fun leg hleg =>
      (h.spotMarks leg hleg).symm⟩

theorem trans (h : SameAccount spotLegs s t) (h' : SameAccount spotLegs t u) :
    SameAccount spotLegs s u :=
  ⟨h.cash.trans h'.cash, h.openPerps.trans h'.openPerps, h.closedPnl.trans h'.closedPnl,
    h.survived.trans h'.survived, h.liquidations.trans h'.liquidations,
    h.fundingPaidTotal.trans h'.fundingPaidTotal, fun id =>
      (h.perpMarks id).trans (h'.perpMarks id),
    fun leg hleg => (h.spotMarks leg hleg).trans (h'.spotMarks leg hleg)⟩

theorem perpMark (h : SameAccount spotLegs s t) (pos : PerpPosition) :
    perpMark s.perpMarks pos = perpMark t.perpMarks pos := by
  rw [P300.perpMark, P300.perpMark, h.perpMarks]

theorem setMark (h : SameAccount spotLegs s t) (id : String) (mark : ℚ) :
    SameAccount spotLegs { s with perpMarks := s.perpMarks.set id mark }
      { t with perpMarks := t.perpMarks.set id mark } := by
  refine ⟨h.cash, h.openPerps, h.closedPnl, h.survived, h.liquidations, h.fundingPaidTotal,
    fun id' => ?_, h.spotMarks⟩
  rw [Dict.get?_set, Dict.get?_set, h.perpMarks]

theorem doLiquidate (h : SameAccount spotLegs s t) (pos : PerpPosition) (ts : Time) (mark : ℚ)
    (reason : LiquidationReason) : SameAccount spotLegs (doLiquidate params pos ts mark reason s)
      (doLiquidate params pos ts mark reason t) := by
  refine ⟨?_, ?_, ?_, ?_, ?_, h.fundingPaidTotal, (h.setMark pos.id mark).perpMarks, h.spotMarks⟩
  · exact congrArg (· + _) h.cash
  · exact congrArg (·.erase pos) h.openPerps
  · exact congrArg (fun d => Dict.set d pos.id (perpUnrealizedPnl pos mark -
      |pos.qty| * mark * params.liquidationFeePct)) h.closedPnl
  · exact congrArg (·.set pos.id false) h.survived
  · exact congrArg (· ++ _) h.liquidations

theorem crossMarginPool (h : SameAccount spotLegs s t) (id : String) (mark haircut : ℚ) :
    crossMarginPool s.cash s.openPerps (s.perpMarks.set id mark) spotLegs s.spotMarks haircut =
      crossMarginPool t.cash t.openPerps
        (t.perpMarks.set id mark) spotLegs t.spotMarks haircut := by
  have hspot : (spotLegs.map fun leg =>
      spotCollateralValue leg (spotMark s.spotMarks leg) haircut) =
      spotLegs.map fun leg => spotCollateralValue leg (spotMark t.spotMarks leg) haircut :=
    List.map_congr_left fun leg hleg => by rw [spotMark, spotMark, h.spotMarks leg hleg]
  rw [P300.crossMarginPool, P300.crossMarginPool, foldl_add, foldl_add, foldl_add,
    foldl_add, h.cash, h.openPerps, hspot]
  congr 2
  exact List.map_congr_left fun pos _ => by rw [(h.setMark id mark).perpMark pos]

theorem requiredMaintenanceMargin (h : SameAccount spotLegs s t) (id : String) (mark mmPct : ℚ) :
    requiredMaintenanceMargin s.openPerps (s.perpMarks.set id mark) mmPct =
      requiredMaintenanceMargin t.openPerps (t.perpMarks.set id mark) mmPct := by
  rw [P300.requiredMaintenanceMargin, P300.requiredMaintenanceMargin, foldl_add, foldl_add,
    h.openPerps]
  congr 2
  exact List.map_congr_left fun pos _ => by rw [(h.setMark id mark).perpMark pos]

theorem breach (h : SameAccount spotLegs s t) (pos : PerpPosition) (mark : ℚ) :
    breach params spotLegs s pos mark = breach params spotLegs t pos mark := by
  rw [P300.breach, P300.breach, h.openPerps]
  dsimp only
  rw [← h.crossMarginPool, ← h.requiredMaintenanceMargin, h.openPerps]

end SameAccount

/-! ## Walks of one account -/

/-- Both raise the same, or both return states of one account. -/
inductive SameReturn (spotLegs : List SpotLeg) :
    Except String MarginState → Except String MarginState → Prop
  | error (e : String) : SameReturn spotLegs (.error e) (.error e)
  | ok {s t : MarginState} : SameAccount spotLegs s t → SameReturn spotLegs (.ok s) (.ok t)

section Congruence

variable {params : SimParams} {spotLegs : List SpotLeg} {s t : MarginState}
  {x y : Except String MarginState}

theorem SameReturn.bind {f g : MarginState → Except String MarginState}
    (h : SameReturn spotLegs x y) (hf : ∀ s t, SameAccount spotLegs s t →
      SameReturn spotLegs (f s) (g t)) :
    SameReturn spotLegs (x >>= f) (y >>= g) := by
  cases h with
  | error e => exact .error e
  | ok h => exact hf _ _ h

theorem SameReturn.foldlM {α : Type} {f : MarginState → α → Except String MarginState} {l : List α}
    (hf : ∀ s t a, SameAccount spotLegs s t → SameReturn spotLegs (f s a) (f t a))
    (h : SameAccount spotLegs s t) : SameReturn spotLegs (l.foldlM f s) (l.foldlM f t) := by
  induction l generalizing s t with
  | nil => exact .ok h
  | cons a l ih =>
    rw [List.foldlM_cons, List.foldlM_cons]
    exact (hf s t a h).bind fun s t h => ih h

theorem sameReturn_liquidateOne (h : SameAccount spotLegs s t) (pos : PerpPosition) (ts : Time)
    (mark : ℚ) :
    SameReturn spotLegs (liquidateOneIfBreached params spotLegs pos ts mark s)
      (liquidateOneIfBreached params spotLegs pos ts mark t) := by
  rw [liquidateOneIfBreached_eq, liquidateOneIfBreached_eq, h.breach]
  rcases breach params spotLegs t pos mark with e | found | reason
  · exact .error e
  · exact .ok h
  · exact .ok (h.doLiquidate pos ts mark reason)

theorem sameReturn_checkInBar (h : SameAccount spotLegs s t) (bar : PriceBar) (pos : PerpPosition) :
    SameReturn spotLegs (checkInBar params spotLegs bar s pos)
    (checkInBar params spotLegs bar t pos) := by
  refine (sameReturn_liquidateOne h pos bar.ts (adverseMark pos bar)).bind fun s t h => ?_
  by_cases hopen : pos ∈ s.openPerps
  · rw [if_pos hopen, if_pos (h.openPerps ▸ hopen)]
    exact .ok (h.setMark pos.id bar.close)
  · rw [if_neg hopen, if_neg (h.openPerps ▸ hopen)]
    exact .ok h

theorem SameAccount.payFunding (h : SameAccount spotLegs s t) (f : FundingSettlement)
    (pos : PerpPosition) :
    SameAccount spotLegs (payFunding f s pos) (payFunding f t pos) := by
  rw [P300.payFunding, P300.payFunding]
  split
  · exact h
  · exact ⟨congrArg (· - _) h.cash, h.openPerps, h.closedPnl, h.survived, h.liquidations,
      congrArg (· + _) h.fundingPaidTotal, h.perpMarks, h.spotMarks⟩

theorem SameAccount.foldl_payFunding (h : SameAccount spotLegs s t) (f : FundingSettlement)
    (l : List PerpPosition) :
    SameAccount spotLegs (l.foldl (P300.payFunding f) s) (l.foldl (P300.payFunding f) t) := by
  induction l generalizing s t with
  | nil => exact h
  | cons pos l ih => exact ih (h.payFunding f pos)

theorem sameReturn_step (h : SameAccount spotLegs s t) (event : MarginEvent) :
    SameReturn spotLegs (s.step params spotLegs event) (t.step params spotLegs event) := by
  unfold MarginState.step
  by_cases hopen : s.openPerps = []
  · rw [if_pos hopen, if_pos (h.openPerps.symm.trans hopen)]
    exact .ok h
  rw [if_neg hopen, if_neg (h.openPerps ▸ hopen)]
  cases event with
  | funding f =>
    dsimp only
    have hpaid := h.foldl_payFunding f s.openPerps
    rw [← h.openPerps, liquidateBreaches, liquidateBreaches, ← hpaid.openPerps]
    refine .foldlM (fun s t pos h => ?_) hpaid
    rw [h.perpMark]
    exact sameReturn_liquidateOne h pos f.ts _
  | perpBar asset bar =>
    dsimp only
    rw [← h.openPerps]
    refine .foldlM (fun s t pos h => sameReturn_checkInBar h bar pos) ?_
    exact ⟨h.cash, rfl, h.closedPnl, h.survived, h.liquidations, h.fundingPaidTotal, h.perpMarks,
      h.spotMarks⟩
  | spotBar asset bar =>
    refine .ok ⟨h.cash, h.openPerps, h.closedPnl, h.survived, h.liquidations, h.fundingPaidTotal,
      h.perpMarks, fun leg hleg => ?_⟩
    rw [Dict.get?_set, Dict.get?_set, h.spotMarks leg hleg]

end Congruence

/-! ## Events that find nothing to do -/

/-- What an event would change is as it is: a settlement charges nothing on balance, and a bar
closes at the marks that are there. -/
def MarginState.AtRest (spotLegs : List SpotLeg) (s : MarginState) : MarginEvent → Prop
  | .funding f => ((s.charged f).map fun pos => fundingPayment pos f.rate).sum = 0
  | .perpBar asset bar =>
    ∀ p ∈ s.openPerps, p.asset = asset → s.perpMarks.get? p.id = some bar.close
  | .spotBar asset bar =>
    ∀ leg ∈ spotLegs, leg.asset = asset → s.spotMarks.get? leg.asset = some bar.close

/-- No perp is open, or the event finds no breach and nothing to change. -/
def MarginState.Idle (params : SimParams) (spotLegs : List SpotLeg) (s : MarginState)
    (event : MarginEvent) :
    Prop :=
  s.openPerps ≠ [] → (∀ c ∈ eventChecks params spotLegs s event,
    c.breach params spotLegs = .ok none) ∧
    s.AtRest spotLegs event

section Idle

variable {params : SimParams} {spotLegs : List SpotLeg} {s s' : MarginState} {event : MarginEvent}

theorem foldl_payFunding_eq (f : FundingSettlement) (l : List PerpPosition) (s : MarginState) :
    l.foldl (payFunding f) s = { s with
      cash := s.cash -
        ((l.filter fun pos => pos.asset = f.asset).map fun pos => fundingPayment pos f.rate).sum
      fundingPaidTotal := s.fundingPaidTotal +
        ((l.filter fun pos => pos.asset = f.asset).map fun pos =>
          fundingPayment pos f.rate).sum } := by
  induction l generalizing s with
  | nil =>
    rw [List.foldl_nil, List.filter_nil, List.map_nil, List.sum_nil, sub_zero, add_zero]
  | cons pos l ih =>
    rw [List.foldl_cons, ih, payFunding, List.filter_cons]
    by_cases hasset : pos.asset = f.asset
    · rw [if_neg (not_not.mpr hasset), if_pos (decide_eq_true hasset), List.map_cons, List.sum_cons,
        ← sub_sub, ← add_assoc]
    · rw [if_pos hasset, if_neg (by simpa using hasset)]

/-- What an event does that finds no breach. -/
def MarginState.chargeOrMark (s : MarginState) : MarginEvent → MarginState
  | .funding f => s.openPerps.foldl (payFunding f) s
  | .perpBar asset bar => (s.openPerps.filter fun p => p.asset = asset).foldl (markAtClose bar)
      { s with barsProcessed := s.barsProcessed + 1 }
  | .spotBar asset bar => { s with spotMarks := s.spotMarks.set asset bar.close }

/-- A bar without a breach marks the perps that it comes to at its close. -/
theorem foldl_markAtClose (bar : PriceBar) {l : List PerpPosition} {s : MarginState}
    (hl : ∀ pos ∈ l, pos ∈ s.openPerps) :
    l.foldl (markAtClose bar) s =
      { s with perpMarks := l.foldl (fun d pos => d.set pos.id bar.close) s.perpMarks } := by
  induction l generalizing s with
  | nil => rfl
  | cons pos l ih =>
    obtain ⟨hpos, hl⟩ := List.forall_mem_cons.mp hl
    have hmark : markAtClose bar s pos = { s with perpMarks := s.perpMarks.set pos.id bar.close } :=
      if_pos hpos
    rw [List.foldl_cons, hmark]
    exact ih hl

theorem get?_foldl_close (close : ℚ) (l : List PerpPosition) (d : Dict String ℚ) (id : String) :
    (l.foldl (fun d pos => d.set pos.id close) d).get? id =
      if ∃ pos ∈ l, pos.id = id then some close else d.get? id := by
  induction l generalizing d with
  | nil => rw [if_neg (by simp)]; rfl
  | cons pos l ih =>
    rw [List.foldl_cons, ih, Dict.get?_set]
    by_cases hl : ∃ pos ∈ l, pos.id = id
    · rw [if_pos hl, if_pos (List.exists_mem_cons_of_exists hl)]
    · rw [if_neg hl]
      by_cases hid : id = pos.id
      · rw [if_pos hid, if_pos ⟨pos, List.mem_cons_self, hid.symm⟩]
      · rw [if_neg hid, if_neg]
        rintro ⟨p, hp, hpid⟩
        rcases List.mem_cons.mp hp with rfl | hp
        · exact hid hpid.symm
        · exact hl ⟨p, hp, hpid⟩

/-- Without a breach an event does no more than to charge or to mark. -/
theorem step_of_no_breach (hopen : s.openPerps ≠ [])
    (h : ∀ c ∈ eventChecks params spotLegs s event, c.breach params spotLegs = .ok none) :
    s.step params spotLegs event = .ok (s.chargeOrMark event) := by
  unfold eventChecks at h
  unfold MarginState.step
  rw [if_neg hopen] at h ⊢
  cases event with
  | funding f =>
    refine ((checking_sweep f.ts).loop h).trans ?_
    rw [List.foldl_fixed]
    rfl
  | perpBar asset bar => exact (checking_bar bar).loop h
  | spotBar asset bar => rfl

theorem no_breach_of_step (h : s.step params spotLegs event = .ok s')
    (hliq : s'.liquidations = s.liquidations) :
    ∀ c ∈ eventChecks params spotLegs s event, c.breach params spotLegs = .ok none := by
  have hnone := (accountedBy_step h).liquidations_eq_iff.mp hliq
  unfold eventChecks at hnone ⊢
  unfold MarginState.step at h
  split at h
  · next hopen =>
    rw [if_pos hopen]
    exact fun c hc => by cases hc
  next hopen =>
  rw [if_neg hopen] at hnone ⊢
  cases event with
  | funding f => exact (checking_sweep f.ts).no_breach h hnone
  | perpBar asset bar => exact (checking_bar bar).no_breach h hnone
  | spotBar asset bar => exact fun c hc => by cases hc

/-- What an event charges or marks leaves the account exactly if the event is at rest. -/
theorem chargeOrMark_same_iff : SameAccount spotLegs s (s.chargeOrMark event) ↔
    s.AtRest spotLegs event := by
  cases event with
  | funding f =>
    rw [MarginState.chargeOrMark, foldl_payFunding_eq]
    constructor
    · intro hacc
      exact left_eq_add.mp hacc.fundingPaidTotal
    · intro hrest
      rw [show ((s.openPerps.filter fun pos => pos.asset = f.asset).map fun pos =>
        fundingPayment pos f.rate).sum = 0 from hrest, sub_zero, add_zero]
      exact .refl s
  | perpBar asset bar =>
    rw [MarginState.chargeOrMark, foldl_markAtClose bar fun pos hpos => List.mem_of_mem_filter hpos]
    constructor
    · intro hacc p hp hasset
      rw [hacc.perpMarks, get?_foldl_close, if_pos]
      exact ⟨p, List.mem_filter.mpr ⟨hp, decide_eq_true hasset⟩, rfl⟩
    · intro hrest
      refine ⟨rfl, rfl, rfl, rfl, rfl, rfl, fun id => ?_, fun _ _ => rfl⟩
      rw [get?_foldl_close]
      split
      · next hid =>
        obtain ⟨p, hp, rfl⟩ := hid
        obtain ⟨hp, hasset⟩ := List.mem_filter.mp hp
        exact hrest p hp (of_decide_eq_true hasset)
      · rfl
  | spotBar asset bar =>
    constructor
    · intro hacc leg hleg hasset
      rw [hacc.spotMarks leg hleg]
      exact (Dict.get?_set ..).trans (if_pos hasset)
    · intro hrest
      refine ⟨rfl, rfl, rfl, rfl, rfl, rfl, fun _ => rfl, fun leg hleg => ?_⟩
      refine Eq.trans ?_ (Dict.get?_set ..).symm
      split
      · next hasset => exact hrest leg hleg hasset
      · rfl

/-- An event leaves the account exactly if it is idle. -/
theorem step_same_iff :
    (∃ s', s.step params spotLegs event = .ok s' ∧ SameAccount spotLegs s s') ↔
      s.Idle params spotLegs event := by
  by_cases hopen : s.openPerps = []
  · refine iff_of_true ⟨s, ?_, .refl s⟩ fun hne => absurd hopen hne
    unfold MarginState.step
    exact if_pos hopen
  constructor
  · rintro ⟨s', hs', hacc⟩ -
    have hnone := no_breach_of_step hs' hacc.liquidations.symm
    rw [step_of_no_breach hopen hnone] at hs'
    cases hs'
    exact ⟨hnone, chargeOrMark_same_iff.mp hacc⟩
  · intro hidle
    obtain ⟨hnone, hrest⟩ := hidle hopen
    exact ⟨_, step_of_no_breach hopen hnone, chargeOrMark_same_iff.mpr hrest⟩

end Idle

/-! ## Leaving early events out -/

namespace MarginInput

variable {params : SimParams} {a : MarginInput}

/-- The state before the loop. -/
def start (a : MarginInput) : MarginState := marginStart a.initialUsdt a.perpPositions a.spotLegs

/-- Over every initial part of the timeline, leaving out its early events leaves the account. -/
def InertThroughout (params : SimParams) (a : MarginInput) : Prop :=
  ∀ before after, a.timeline = before ++ after → SameReturn a.spotLegs
    (marginRun params a.spotLegs a.start before)
      (marginRun params a.spotLegs a.start (a.kept before))

/-- Each early event is idle in the state in which the walk comes to it. -/
def EarlyEventsIdle (params : SimParams) (a : MarginInput) : Prop :=
  ∀ before event after s, a.timeline = before ++ event :: after → a.Early event →
    marginRun params a.spotLegs a.start before = .ok s → s.Idle params a.spotLegs event

theorem kept_append_singleton (before : List MarginEvent) (event : MarginEvent) :
    a.kept (before ++ [event]) = if a.Early event then a.kept before
      else a.kept before ++ [event] := by
  rw [kept, List.filter_append, ← kept]
  by_cases hearly : a.Early event
  · rw [if_pos hearly, List.filter_cons_of_neg (by simpa using hearly), List.filter_nil,
      List.append_nil]
  · rw [if_neg hearly, List.filter_cons_of_pos (by simpa using hearly), List.filter_nil]

theorem marginRun_append_singleton {spotLegs : List SpotLeg} {s : MarginState}
    {before : List MarginEvent} {event : MarginEvent} :
    marginRun params spotLegs s (before ++ [event]) =
      marginRun params spotLegs s before >>= fun s => s.step params spotLegs event := by
  rw [marginRun_append]
  congr 1
  funext s
  rw [marginRun, List.foldlM_cons]
  exact bind_pure _

theorem inertThroughout_iff : a.InertThroughout params ↔ a.EarlyEventsIdle params := by
  constructor
  · intro hinert before event after s htimeline hearly hs
    have hbefore := hinert before (event :: after) htimeline
    have hevent := hinert (before ++ [event]) after (by rw [htimeline, List.append_assoc]; rfl)
    rw [kept_append_singleton, if_pos hearly, marginRun_append_singleton, hs, ok_bind] at hevent
    rw [hs] at hbefore
    generalize marginRun params a.spotLegs a.start (a.kept before) = y at hbefore hevent
    cases hbefore with
    | ok hst =>
      cases hstep : s.step params a.spotLegs event with
      | error e =>
        rw [hstep] at hevent
        cases hevent
      | ok s' =>
        rw [hstep] at hevent
        cases hevent with
        | ok hs't => exact step_same_iff.mp ⟨s', hstep, hst.trans hs't.symm⟩
  · intro hidle before
    induction before using List.reverseRecOn with
    | nil => exact fun _ _ => .ok (.refl _)
    | append_singleton before event ih =>
      intro after htimeline
      rw [List.append_assoc, List.singleton_append] at htimeline
      have hbefore := ih (event :: after) htimeline
      rw [kept_append_singleton, marginRun_append_singleton]
      by_cases hearly : a.Early event
      · rw [if_pos hearly]
        cases hs : marginRun params a.spotLegs a.start before with
        | error e => rwa [hs] at hbefore
        | ok s =>
          obtain ⟨s', hs', hacc⟩ :=
            step_same_iff.mpr (hidle before event after s htimeline hearly hs)
          rw [hs] at hbefore
          rw [ok_bind, hs']
          generalize marginRun params a.spotLegs a.start (a.kept before) = y at hbefore
          cases hbefore with
          | ok hst => exact .ok (hacc.symm.trans hst)
      · rw [if_neg hearly, marginRun_append_singleton]
        exact hbefore.bind fun s t h => sameReturn_step h event

end MarginInput

/-- The runs raise the same, or report the same liquidations, survival, profits, funding and
cash. -/
inductive SameReport : Except String SimulationResult → Except String SimulationResult → Prop
  | error (e : String) : SameReport (.error e) (.error e)
  | ok {r r' : SimulationResult} : r.finalUsdt = r'.finalUsdt → r.finalPerpPnl = r'.finalPerpPnl →
    r.fundingPaid = r'.fundingPaid → r.liquidations = r'.liquidations → r.survived = r'.survived →
    SameReport (.ok r) (.ok r')

theorem SameReturn.sameReport {spotLegs : List SpotLeg} {x y : Except String MarginState}
    (h : SameReturn spotLegs x y) :
    SameReport (x >>= fun s => .ok s.result) (y >>= fun s => .ok s.result) := by
  cases h with
  | error e => exact .error e
  | @ok s t h =>
    refine .ok h.cash ?_ h.fundingPaidTotal h.liquidations h.survived
    rw [MarginState.result, MarginState.result]
    dsimp only
    rw [h.openPerps, h.closedPnl]
    simp only [h.perpMark]

/-- What is dated before the entries in its asset can be left out. -/
def MarginInput.InertBeforeEntry (params : SimParams) (a : MarginInput) : Prop :=
  SameReport (a.run params) (a.fromEntry.run params)

/-- Leaving the early events out changes nothing over any part of the timeline exactly if each of
them is idle, and then the reports are the same. -/
theorem inert_before_entry_iff (params : SimParams) (a : MarginInput) :
    (a.InertThroughout params ↔ a.EarlyEventsIdle params) ∧
      (a.EarlyEventsIdle params → a.InertBeforeEntry params) := by
  refine ⟨MarginInput.inertThroughout_iff, fun hidle => ?_⟩
  have hsame := MarginInput.inertThroughout_iff.mpr hidle a.timeline [] (List.append_nil _).symm
  rw [← timeline_fromEntry] at hsame
  exact hsame.sameReport

/-- A long of 10 BTC that is entered at hour 10. -/
def latePerps : List PerpPosition :=
  (pumpPerps.take 1).map fun pos => { pos with side := .long, entryTime := 10 }

/-- BTC is at 50 at hour 5, before the entry. -/
def lateEntry : MarginInput :=
  ⟨500, latePerps, [], Dict.empty.set "BTC" [⟨5, 60, 50, 60⟩, ⟨10, 101, 99, 100⟩], .empty,
    [⟨8, "BTC", 1 / 1000⟩]⟩

/-- The perp is liquidated at hour 5, five hours before it is entered. -/
theorem liquidated_before_entry :
    (lateEntry.run {}).toOption.map
      (fun r => r.liquidations.map fun e => (e.positionId, e.liqTime)) =
      some [("A", 5)] ∧
    (lateEntry.fromEntry.run {}).toOption.map (·.liquidations) = some [] ∧
    ¬ lateEntry.InertBeforeEntry {} := by
  have hrun : (lateEntry.run {}).toOption.map (fun r => r.liquidations.map fun e =>
      (e.positionId, e.liqTime)) = some [("A", 5)] := by decide +kernel
  have hkept : (lateEntry.fromEntry.run {}).toOption.map (·.liquidations) = some [] :=
    by decide +kernel
  refine ⟨hrun, hkept, fun hinert => ?_⟩
  rw [MarginInput.InertBeforeEntry] at hinert
  generalize lateEntry.run {} = x at hinert hrun
  generalize lateEntry.fromEntry.run {} = y at hinert hkept
  cases hinert with
  | error e => cases hrun
  | @ok r r' _ _ _ hliq _ =>
    have hnone : r'.liquidations = [] := Option.some.inj hkept
    have hone : (r.liquidations.map fun e => (e.positionId, e.liqTime)) = [("A", 5)] :=
      Option.some.inj hrun
    rw [hliq, hnone] at hone
    cases hone

end P300
