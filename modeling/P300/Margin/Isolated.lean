import Mathlib.Data.Int.ConditionallyCompleteOrder
import P300.Lib.Probes
import P300.Lib.Sorted
import P300.Margin.Breach

/-!
# Isolated perps

In isolated mode a run treats each of its perps as if it were alone: it is checked in the bars of
its asset, and at its last mark whenever some asset settles. Nothing else of the input reaches it.
-/

namespace P300

/-! ## A perp alone -/

/-- The perp has its maintenance margin at the mark. -/
def PerpPosition.Covers (params : SimParams) (pos : PerpPosition) (mark : ℚ) : Prop :=
  |pos.qty| * mark * params.mmPct ≤ pos.sizeUsdt / pos.leverage + perpUnrealizedPnl pos mark

instance (params : SimParams) (pos : PerpPosition) : DecidablePred (pos.Covers params) :=
  fun _ => inferInstanceAs (Decidable (_ ≤ _))

/-- The event of an isolated liquidation. -/
def isoLiquidation (params : SimParams) (pos : PerpPosition) (ts : Time) (mark : ℚ) :
    LiquidationEvent where
  positionId := pos.id
  liqTime := ts
  liqPrice := mark
  marginLost := |perpUnrealizedPnl pos mark| + |pos.qty| * mark * params.liquidationFeePct
  fee := |pos.qty| * mark * params.liquidationFeePct
  reason := .isoBreach (pos.sizeUsdt / pos.leverage + perpUnrealizedPnl pos mark)
    (|pos.qty| * mark * params.mmPct)

/-- What a run knows of a perp. -/
structure IsoPerp where
  mark : ℚ
  liquidation : Option LiquidationEvent

namespace IsoPerp

def check (params : SimParams) (pos : PerpPosition) (ts : Time) (mark : ℚ)
    (i : IsoPerp) : IsoPerp :=
  if i.liquidation.isSome ∨ pos.Covers params mark then i
  else ⟨mark, some (isoLiquidation params pos ts mark)⟩

/-- The mark goes to the close if the perp is still there. -/
def markClose (close : ℚ) (i : IsoPerp) : IsoPerp :=
  if i.liquidation.isSome then i else { i with mark := close }

def machine (params : SimParams) (pos : PerpPosition) : Probes.Machine IsoPerp Time PriceBar where
  probe ts i := i.check params pos ts i.mark
  move ts bar i := (i.check params pos ts (adverseMark pos bar)).markClose bar.close
  Done i := i.liquidation.isSome
  done_probe h _ := if_pos (.inl h)
  done_move h ts bar := by
    rw [check, if_pos (.inl h), markClose, if_pos h]
  probe_cases i := by
    by_cases h : i.liquidation.isSome ∨ pos.Covers params i.mark
    · exact .inl fun _ => if_pos h
    · refine .inr fun ts => ?_
      rw [check, if_neg h]
      rfl

theorem check_of_covers {params : SimParams} {pos : PerpPosition} {ts : Time} {mark : ℚ}
    {i : IsoPerp} (h : pos.Covers params mark) : i.check params pos ts mark = i := if_pos (.inr h)

/-- The state of a run says of its perp what is known of it. -/
structure Follows (pos : PerpPosition) (i : IsoPerp) (s : MarginState) : Prop where
  ids : (s.openPerps.map (·.id)).Nodup
  isOpen : i.liquidation = none → pos ∈ s.openPerps ∧ s.perpMarks.get? pos.id = some i.mark
  closed : ∀ e, i.liquidation = some e → (∀ q ∈ s.openPerps, q.id ≠ pos.id) ∧
    s.closedPnl.get? pos.id = some (perpUnrealizedPnl pos e.liqPrice - e.fee)
  survived : s.survived.get? pos.id = some i.liquidation.isNone
  liquidations : s.liquidations.filter (fun e => e.positionId = pos.id) = i.liquidation.toList

namespace Follows

variable {params : SimParams} {spotLegs : List SpotLeg} {pos q : PerpPosition} {i : IsoPerp}
  {s s' : MarginState}

/-- A perp that is not open is done with. -/
theorem done_of_not_mem (H : Follows pos i s) (hopen : pos ∉ s.openPerps) :
    i.liquidation.isSome := by
  cases hi : i.liquidation with
  | none => exact absurd (H.isOpen hi).1 hopen
  | some e => rfl

theorem ids_ne_of_done (H : Follows pos i s) (hi : i.liquidation.isSome) :
    ∀ q ∈ s.openPerps, q.id ≠ pos.id := by
  obtain ⟨e, he⟩ := Option.isSome_iff_exists.mp hi
  exact (H.closed e he).1

/-- Another perp is liquidated. -/
theorem doLiquidate_other (H : Follows pos i s) (hq : q.id ≠ pos.id) (ts : Time) (mark : ℚ)
    (reason : LiquidationReason) : Follows pos i (doLiquidate params q ts mark reason s) := by
  refine ⟨H.ids.sublist (List.erase_sublist.map _), fun hi => ?_, fun e he => ?_, ?_, ?_⟩
  · obtain ⟨hpos, hmark⟩ := H.isOpen hi
    refine ⟨(List.mem_erase_of_ne fun h => hq (congrArg (·.id) h).symm).mpr hpos, ?_⟩
    exact (Dict.get?_set ..).trans ((if_neg hq.symm).trans hmark)
  · obtain ⟨hne, hpnl⟩ := H.closed e he
    refine ⟨fun r hr => hne r (List.mem_of_mem_erase hr), ?_⟩
    exact (Dict.get?_set ..).trans ((if_neg hq.symm).trans hpnl)
  · exact (Dict.get?_set ..).trans ((if_neg hq.symm).trans H.survived)
  · rw [doLiquidate, List.filter_append, H.liquidations,
      List.filter_cons_of_neg (by simpa using hq), List.filter_nil, List.append_nil]

/-- The perp itself is liquidated. -/
theorem doLiquidate_self (H : Follows pos i s) (hi : i.liquidation = none) (ts : Time) (mark : ℚ) :
    Follows pos ⟨mark, some (isoLiquidation params pos ts mark)⟩
      (doLiquidate params pos ts mark (isoLiquidation params pos ts mark).reason s) := by
  obtain ⟨hpos, _⟩ := H.isOpen hi
  refine ⟨H.ids.sublist (List.erase_sublist.map _), (by rintro ⟨⟩), ?_, ?_, ?_⟩
  · rintro e ⟨⟩
    exact ⟨fun r hr => id_ne_of_mem_erase H.ids hpos hr, (Dict.get?_set ..).trans (if_pos rfl)⟩
  · exact (Dict.get?_set ..).trans (if_pos rfl)
  · rw [doLiquidate, List.filter_append, H.liquidations, hi, List.filter_cons_of_pos (by simp)]
    rfl

theorem liquidateOne_other (H : Follows pos i s) (hq : q.id ≠ pos.id) {ts : Time} {mark : ℚ}
    (h : liquidateOneIfBreached params spotLegs q ts mark s = .ok s') : Follows pos i s' := by
  obtain rfl | ⟨_, reason, rfl⟩ := liquidateOneIfBreached_cases h
  · exact H
  · exact H.doLiquidate_other hq ts mark reason

/-- A check of the perp is the check of a perp alone. -/
theorem liquidateOne_self (hmode : params.marginMode = .isolated) (H : Follows pos i s)
    {ts : Time} {mark : ℚ} (h : liquidateOneIfBreached params spotLegs pos ts mark s = .ok s') :
    Follows pos (i.check params pos ts mark) s' := by
  cases hi : i.liquidation with
  | some e =>
    have hopen : pos ∉ s.openPerps := fun hpos => (H.closed e hi).1 pos hpos rfl
    rw [liquidateOneIfBreached, if_pos hopen] at h
    cases h
    rw [check, if_pos (.inl (hi ▸ rfl))]
    exact H
  | none =>
    rw [liquidateOneIfBreached, if_neg (not_not.mpr (H.isOpen hi).1), hmode] at h
    obtain ⟨⟨available, required⟩, hhealth, h⟩ := of_bind_ok h
    obtain ⟨margin, hmargin, hhealth⟩ := of_bind_ok hhealth
    rw [PerpPosition.initialMargin] at hmargin
    split at hmargin
    · cases hmargin
    · cases hmargin
      cases hhealth
      dsimp only at h
      rw [check, hi]
      split at h
      · next hbreach =>
        cases h
        have hnot : ¬ ((none : Option LiquidationEvent).isSome ∨ pos.Covers params mark) :=
          not_or.mpr ⟨Bool.false_ne_true, not_le.mpr hbreach⟩
        rw [if_neg hnot]
        exact H.doLiquidate_self hi ts mark
      · next hok =>
        cases h
        rw [if_pos (.inr (not_lt.mp hok))]
        exact H

theorem setMark (H : Follows pos i s) (hq : q.id ≠ pos.id) (mark : ℚ) :
    Follows pos i { s with perpMarks := s.perpMarks.set q.id mark } := by
  refine ⟨H.ids, fun hi => ⟨(H.isOpen hi).1, ?_⟩, H.closed, H.survived, H.liquidations⟩
  exact (Dict.get?_set ..).trans ((if_neg hq.symm).trans (H.isOpen hi).2)

theorem checkInBar_other (H : Follows pos i s) (hq : q.id ≠ pos.id) {bar : PriceBar}
    (h : checkInBar params spotLegs bar s q = .ok s') : Follows pos i s' := by
  obtain ⟨s₁, h₁, h⟩ := of_bind_ok h
  have H₁ := H.liquidateOne_other hq h₁
  split at h
  · cases h
    exact H₁.setMark hq bar.close
  · cases h
    exact H₁

theorem checkInBar_self (hmode : params.marginMode = .isolated) (H : Follows pos i s)
    {bar : PriceBar} (h : checkInBar params spotLegs bar s pos = .ok s') :
    Follows pos ((machine params pos).move bar.ts bar i) s' := by
  obtain ⟨s₁, h₁, h⟩ := of_bind_ok h
  have H₁ := H.liquidateOne_self hmode h₁
  change Follows pos (markClose _ _) s'
  rw [markClose]
  by_cases hi : (i.check params pos bar.ts (adverseMark pos bar)).liquidation.isSome
  · rw [if_neg fun hopen => H₁.ids_ne_of_done hi pos hopen rfl] at h
    cases h
    rw [if_pos hi]
    exact H₁
  · obtain ⟨hopen, _⟩ := H₁.isOpen (Option.not_isSome_iff_eq_none.mp hi)
    rw [if_pos hopen] at h
    cases h
    rw [if_neg hi]
    exact ⟨H₁.ids, fun _ => ⟨hopen, (Dict.get?_set ..).trans (if_pos rfl)⟩, H₁.closed, H₁.survived,
      H₁.liquidations⟩

/-! ### A pass over many perps -/

section pass

variable {f : MarginState → PerpPosition → Except String MarginState} {g : IsoPerp → IsoPerp}
  {l : List PerpPosition}

theorem foldlM_others (hf : ∀ {q s s'}, q.id ≠ pos.id → Follows pos i s → f s q = .ok s' →
      Follows pos i s')
    (hl : ∀ q ∈ l, q.id ≠ pos.id) (H : Follows pos i s) (h : l.foldlM f s = .ok s') :
    Follows pos i s' :=
  foldlM_inv (P := Follows pos i) (fun _ _ q hq H => hf (hl q hq) H) H h

/-- A pass over perps of different ids comes to the perp once. -/
theorem foldlM_once (hf : ∀ {q i s s'}, q.id ≠ pos.id → Follows pos i s → f s q = .ok s' →
      Follows pos i s')
    (hself : ∀ {s s'}, Follows pos i s → f s pos = .ok s' → Follows pos (g i) s')
    (hl : (l.map (·.id)).Nodup) (hpos : pos ∈ l) (H : Follows pos i s) (h : l.foldlM f s = .ok s') :
    Follows pos (g i) s' := by
  obtain ⟨before, after, rfl⟩ := List.append_of_mem hpos
  rw [List.map_append, List.map_cons] at hl
  have hbefore : ∀ q ∈ before, q.id ≠ pos.id := fun q hq hid =>
    List.disjoint_of_nodup_append hl (List.mem_map_of_mem hq) (hid ▸ List.mem_cons_self)
  have hafter : ∀ q ∈ after, q.id ≠ pos.id := fun q hq hid =>
    (List.nodup_cons.mp hl.of_append_right).1 (hid ▸ List.mem_map_of_mem hq)
  rw [List.foldlM_append] at h
  obtain ⟨s₁, h₁, h⟩ := of_bind_ok h
  rw [List.foldlM_cons] at h
  obtain ⟨s₂, h₂, h⟩ := of_bind_ok h
  exact foldlM_others hf hafter (hself (foldlM_others hf hbefore H h₁) h₂) h

end pass

/-- A sweep finds the perp at its last mark. -/
theorem liquidateBreaches (hmode : params.marginMode = .isolated) (H : Follows pos i s) {ts : Time}
    (h : liquidateBreaches params spotLegs ts s = .ok s') :
    Follows pos (i.check params pos ts i.mark) s' := by
  rw [P300.liquidateBreaches] at h
  by_cases hi : i.liquidation.isSome
  · rw [check, if_pos (.inl hi)]
    exact foldlM_others (fun hq H h => H.liquidateOne_other hq h) (H.ids_ne_of_done hi) H h
  · refine foldlM_once (fun hq H h => H.liquidateOne_other hq h) (fun H h => ?_) H.ids ?_ H h
    · rw [perpMark, (H.isOpen (Option.not_isSome_iff_eq_none.mp hi)).2] at h
      exact H.liquidateOne_self hmode h
    · exact (H.isOpen (Option.not_isSome_iff_eq_none.mp hi)).1

theorem foldl_payFunding (H : Follows pos i s) (f : FundingSettlement) (l : List PerpPosition) :
    Follows pos i (l.foldl (payFunding f) s) := by
  induction l generalizing s with
  | nil => exact H
  | cons q l ih =>
    refine ih ?_
    rw [payFunding]
    split
    · exact H
    · exact ⟨H.ids, H.isOpen, H.closed, H.survived, H.liquidations⟩

end Follows

end IsoPerp

/-! ## The perp's part of the timeline -/

/-- What an event is to the perps of an asset. -/
def MarginEvent.lookOf (asset : String) : MarginEvent → Option (Probes.Look Time PriceBar)
  | .perpBar a bar => if a = asset then some (.move bar.ts bar) else none
  | .spotBar _ _ => none
  | .funding f => some (.probe f.ts)

namespace IsoPerp.Follows

variable {params : SimParams} {spotLegs : List SpotLeg} {pos : PerpPosition} {i : IsoPerp}
  {s s' : MarginState}

theorem step (hmode : params.marginMode = .isolated) (H : Follows pos i s) {event : MarginEvent}
    (h : s.step params spotLegs event = .ok s') :
    Follows pos ((event.lookOf pos.asset).elim i ((machine params pos).look i)) s' := by
  unfold MarginState.step at h
  split at h
  · next hnil =>
    -- the loop is left: the perp is done with
    cases h
    have hdone := H.done_of_not_mem (hnil ▸ List.not_mem_nil)
    cases event.lookOf pos.asset with
    | none => exact H
    | some a =>
      rw [Option.elim_some, show (machine params pos).look i a = i from
        Probes.Machine.run_of_done (M := machine params pos) hdone [a]]
      exact H
  cases event with
  | funding f => exact (H.foldl_payFunding f _).liquidateBreaches hmode h
  | spotBar asset bar =>
    cases h
    exact ⟨H.ids, H.isOpen, H.closed, H.survived, H.liquidations⟩
  | perpBar asset bar =>
    have H₁ : Follows pos i { s with barsProcessed := s.barsProcessed + 1 } :=
      ⟨H.ids, H.isOpen, H.closed, H.survived, H.liquidations⟩
    have hids := H.ids.sublist (List.filter_sublist (p := fun p => p.asset = asset) |>.map _)
    rw [MarginEvent.lookOf]
    by_cases hasset : asset = pos.asset
    · rw [if_pos hasset, Option.elim_some]
      by_cases hopen : pos ∈ s.openPerps
      · refine foldlM_once (fun hq H h => H.checkInBar_other hq h)
          (fun H h => H.checkInBar_self hmode h)
          hids (List.mem_filter.mpr ⟨hopen, decide_eq_true hasset.symm⟩) H₁ h
      · have hdone := H.done_of_not_mem hopen
        rw [Probes.Machine.look, (machine params pos).done_move hdone]
        exact foldlM_others (fun hq H h => H.checkInBar_other hq h)
          (fun q hq => H.ids_ne_of_done hdone q (List.mem_of_mem_filter hq)) H₁ h
    · rw [if_neg hasset, Option.elim_none]
      by_cases hopen : pos ∈ s.openPerps
      · refine foldlM_others (fun hq H h => H.checkInBar_other hq h)
          (fun q hq hid => hasset ?_) H₁ h
        have hmem := List.mem_filter.mp hq
        rw [← List.inj_on_of_nodup_map H.ids hmem.1 hopen hid]
        exact (of_decide_eq_true hmem.2).symm
      · exact foldlM_others (fun hq H h => H.checkInBar_other hq h)
          (fun q hq => H.ids_ne_of_done (H.done_of_not_mem hopen) q (List.mem_of_mem_filter hq)) H₁
            h

/-- A walk does to the perp what its part of the timeline does to a perp alone. -/
theorem run (hmode : params.marginMode = .isolated) (H : Follows pos i s)
    {events : List MarginEvent} (h : marginRun params spotLegs s events = .ok s') :
    Follows pos ((machine params pos).run i (events.filterMap (MarginEvent.lookOf pos.asset)))
      s' := by
  induction events generalizing i s with
  | nil =>
    cases h
    exact H
  | cons event events ih =>
    rw [marginRun, List.foldlM_cons] at h
    obtain ⟨s₁, h₁, h⟩ := of_bind_ok h
    have H' := ih (H.step hmode h₁) h
    rw [List.filterMap_cons]
    cases hlook : event.lookOf pos.asset with
    | none => rwa [hlook] at H'
    | some a => rwa [hlook] at H'

theorem find?_id {l : List PerpPosition} (hl : (l.map (·.id)).Nodup) (hpos : pos ∈ l) :
    l.reverse.find? (fun p => p.id = pos.id) = some pos := by
  cases h : l.reverse.find? fun p => p.id = pos.id with
  | none =>
    exact absurd (decide_eq_true rfl) (List.find?_eq_none.mp h pos (List.mem_reverse.mpr hpos))
  | some q =>
    have hid := List.find?_some h
    rw [List.inj_on_of_nodup_map hl (List.mem_reverse.mp (List.mem_of_find?_eq_some h)) hpos
      (of_decide_eq_true hid)]

theorem start {perps : List PerpPosition} (hids : (perps.map (·.id)).Nodup) (hpos : pos ∈ perps)
    (initial : ℚ) (spotLegs : List SpotLeg) :
    Follows pos ⟨pos.entryPrice, none⟩ (marginStart initial perps spotLegs) := by
  refine ⟨hids, fun _ => ⟨hpos, ?_⟩, (by rintro e ⟨⟩), ?_, rfl⟩
  · refine (get?_foldl_id PerpPosition.entryPrice perps _ pos.id).trans ?_
    rw [find?_id hids hpos]
    rfl
  · refine (get?_foldl_id (fun _ => true) perps _ pos.id).trans ?_
    rw [find?_id hids hpos]
    rfl

/-- The profit that a run reports. -/
theorem finalPnl (H : Follows pos i s) : s.result.finalPerpPnl.get? pos.id =
    some (i.liquidation.elim (perpUnrealizedPnl pos i.mark) fun e =>
      perpUnrealizedPnl pos e.liqPrice - e.fee) := by
  refine (get?_foldl_id (fun p => perpUnrealizedPnl p (perpMark s.perpMarks p)) _ _ pos.id).trans ?_
  cases hi : i.liquidation with
  | none =>
    obtain ⟨hopen, hmark⟩ := H.isOpen hi
    rw [find?_id H.ids hopen, Option.map_some, Option.some_or, perpMark, hmark]
    rfl
  | some e =>
    obtain ⟨hne, hpnl⟩ := H.closed e hi
    rw [List.find?_eq_none.mpr fun q hq => (by simpa using hne q (List.mem_reverse.mp hq)),
      Option.map_none, Option.none_or]
    exact hpnl

end IsoPerp.Follows

/-! ## Two inputs -/

/-- What `simulate_position_path` is given, but for the parameters. -/
structure MarginInput where
  initialUsdt : ℚ
  perpPositions : List PerpPosition
  spotLegs : List SpotLeg
  perpPriceBars : Dict String (List PriceBar)
  spotPriceBars : Dict String (List PriceBar)
  fundingSettlements : List FundingSettlement

/-- What a run reports of a perp. -/
structure PerpOutcome where
  survived : Option Bool
  liquidations : List LiquidationEvent
  finalPnl : Option ℚ
  deriving DecidableEq

def SimulationResult.outcome (r : SimulationResult) (pos : PerpPosition) : PerpOutcome where
  survived := r.survived.get? pos.id
  liquidations := r.liquidations.filter fun e => e.positionId = pos.id
  finalPnl := r.finalPerpPnl.get? pos.id

def IsoPerp.outcome (pos : PerpPosition) (i : IsoPerp) : PerpOutcome where
  survived := some i.liquidation.isNone
  liquidations := i.liquidation.toList
  finalPnl :=
    some (i.liquidation.elim (perpUnrealizedPnl pos i.mark) fun e =>
      perpUnrealizedPnl pos e.liqPrice - e.fee)

/-- An event is a bar of the perps of an asset. -/
def MarginEvent.isBarOf (asset : String) : MarginEvent → Bool
  | .perpBar a _ => a = asset
  | _ => false

instance : Std.Total timelineLe where
  total a b := by
    rcases lt_trichotomy a.ts b.ts with h | h | h
    · exact .inl (.inl h)
    · exact (le_total a.rank b.rank).imp (fun hr => .inr ⟨h, hr⟩) fun hr => .inr ⟨h.symm, hr⟩
    · exact .inr (.inl h)

instance : IsTrans MarginEvent timelineLe where
  trans a b c := by
    rintro (h | ⟨h, hr⟩) (h' | ⟨h', hr'⟩)
    · exact .inl (h.trans h')
    · exact .inl (h.trans_eq h')
    · exact .inl (h.trans_lt h')
    · exact .inr ⟨h.trans h', hr.trans hr'⟩

namespace MarginInput

variable (params : SimParams)

def run (a : MarginInput) : Except String SimulationResult :=
  simulatePositionPath a.initialUsdt a.perpPositions a.spotLegs a.perpPriceBars a.spotPriceBars
    a.fundingSettlements params

def bars (a : MarginInput) (asset : String) : List PriceBar := (a.perpPriceBars.get? asset).getD []

def settlements (a : MarginInput) (asset : String) : List FundingSettlement :=
  a.fundingSettlements.filter fun f => f.asset = asset

/-- Some asset settles at `t`. -/
def SettlesAt (a : MarginInput) (t : Time) : Prop := ∃ f ∈ a.fundingSettlements, f.ts = t

def timeline (a : MarginInput) : List MarginEvent :=
  marginTimeline a.perpPriceBars a.spotPriceBars a.fundingSettlements

/-- The part of the timeline of the perps of an asset. -/
def view (a : MarginInput) (asset : String) : List (Probes.Look Time PriceBar) :=
  a.timeline.filterMap (MarginEvent.lookOf asset)

variable {params} {a b : MarginInput} {asset : String}

theorem pairwise_view : (a.view asset).Pairwise Probes.Look.Before := by
  refine (List.pairwise_insertionSort timelineLe _).filterMap _ fun e e' hle l hl l' hl' => ?_
  have hts : e.ts < e'.ts ∨ e.ts = e'.ts ∧ e.rank ≤ e'.rank := hle
  have hle : e.ts ≤ e'.ts := hts.elim Int.le_of_lt fun h => Int.le_of_eq h.1
  have hlook : ∀ {e : MarginEvent} {l}, e.lookOf asset = some l →
      (∃ f, e = .funding f ∧ l = .probe f.ts) ∨ ∃ bar, e = .perpBar asset bar ∧
        l = .move bar.ts bar := by
    intro e l h
    cases e with
    | funding f =>
      cases h
      exact .inl ⟨f, rfl, rfl⟩
    | spotBar => cases h
    | perpBar x bar =>
      rw [MarginEvent.lookOf] at h
      split at h
      · next hx =>
        cases h
        exact .inr ⟨bar, hx ▸ rfl, rfl⟩
      · cases h
  obtain ⟨f, rfl, rfl⟩ | ⟨bar, rfl, rfl⟩ := hlook hl
  · obtain ⟨f', rfl, rfl⟩ | ⟨bar', rfl, rfl⟩ := hlook hl' <;> exact hle
  · obtain ⟨f', rfl, rfl⟩ | ⟨bar', rfl, rfl⟩ := hlook hl'
    · exact hts.resolve_right fun h => absurd h.2 (Nat.not_succ_le_zero 0)
    · exact hle

theorem probe_mem_view_iff {t : Time} : Probes.Look.probe t ∈ a.view asset ↔ a.SettlesAt t := by
  rw [view, List.mem_filterMap]
  constructor
  · rintro ⟨e, he, hlook⟩
    cases e with
    | funding f =>
      cases hlook
      obtain ⟨_, _, _, _, h⟩ | ⟨_, _, _, _, h⟩ | ⟨f', hf, h⟩ := mem_marginTimeline.mp he
      · cases h
      · cases h
      · cases h
        exact ⟨f, hf, rfl⟩
    | spotBar => cases hlook
    | perpBar x bar =>
      rw [MarginEvent.lookOf] at hlook
      split at hlook <;> cases hlook
  · rintro ⟨f, hf, rfl⟩
    exact ⟨.funding f, mem_marginTimeline.mpr (.inr (.inr ⟨f, hf, rfl⟩)), rfl⟩

/-- The moves are the bars of the asset. -/
def moveOf (asset : String) (e : MarginEvent) : Option (Time × PriceBar) :=
  (e.lookOf asset).bind Probes.Look.move?

theorem moveOf_eq_none {e : MarginEvent} (h : ¬ e.isBarOf asset) : moveOf asset e = none := by
  cases e with
  | funding f => rfl
  | spotBar => rfl
  | perpBar x bar =>
    rw [moveOf, MarginEvent.lookOf, if_neg fun hx => h (decide_eq_true hx)]
    rfl

theorem filterMap_moves (l : List MarginEvent) :
    (l.filterMap (MarginEvent.lookOf asset)).filterMap Probes.Look.move? =
      (l.filter (MarginEvent.isBarOf asset)).filterMap (moveOf asset) := by
  rw [List.filterMap_filterMap, List.filterMap_filter]
  refine List.filterMap_congr fun e _ => ?_
  split
  · rfl
  · next h => exact moveOf_eq_none h

/-- The bars of an asset among all of the perps'. -/
theorem filter_entries {l : List (String × List PriceBar)} (hl : (l.map Prod.fst).Nodup) :
    (l.flatMap fun e => e.2.map (MarginEvent.perpBar e.1)).filter (MarginEvent.isBarOf asset) =
      ((l.lookup asset).getD []).map (MarginEvent.perpBar asset) := by
  have hsame : ∀ (x : String) (bars : List PriceBar),
      (bars.map (MarginEvent.perpBar x)).filter (MarginEvent.isBarOf asset) =
        if x = asset then bars.map (MarginEvent.perpBar asset) else [] := by
    intro x bars
    split
    · next hx =>
      subst hx
      refine List.filter_eq_self.mpr fun e he => ?_
      obtain ⟨bar, _, rfl⟩ := List.mem_map.mp he
      exact decide_eq_true rfl
    · next hx =>
      refine List.filter_eq_nil_iff.mpr fun e he h => hx ?_
      obtain ⟨bar, _, rfl⟩ := List.mem_map.mp he
      exact of_decide_eq_true h
  induction l with
  | nil => rfl
  | cons e l ih =>
    obtain ⟨x, bars⟩ := e
    obtain ⟨hx, hl⟩ := List.nodup_cons.mp hl
    rw [List.flatMap_cons, List.filter_append, ih hl, hsame, List.lookup_cons]
    by_cases hasset : x = asset
    · subst hasset
      have hnone : l.lookup x = none := List.lookup_eq_none_iff.mpr fun e he =>
        bne_iff_ne.mpr fun h => hx (List.mem_map.mpr ⟨e, he, h.symm⟩)
      rw [if_pos rfl, hnone, beq_self_eq_true]
      exact List.append_nil _
    · rw [if_neg hasset, beq_false_of_ne (Ne.symm hasset), List.nil_append]

theorem filter_timeline : a.timeline.filter (MarginEvent.isBarOf asset) =
    ((a.bars asset).map (MarginEvent.perpBar asset)).insertionSort timelineLe := by
  have hspot : ∀ e ∈ a.spotPriceBars.entries.flatMap fun e => e.2.map (MarginEvent.spotBar e.1),
      ¬ e.isBarOf asset := by
    intro e he
    obtain ⟨x, _, he⟩ := List.mem_flatMap.mp he
    obtain ⟨bar, _, rfl⟩ := List.mem_map.mp he
    exact Bool.false_ne_true
  have hfunding : ∀ e ∈ a.fundingSettlements.map MarginEvent.funding, ¬ e.isBarOf asset := by
    intro e he
    obtain ⟨f, _, rfl⟩ := List.mem_map.mp he
    exact Bool.false_ne_true
  rw [timeline, marginTimeline, Sorted.filter_insertionSort, List.filter_append, List.filter_append,
    filter_entries a.perpPriceBars.nodup, List.filter_eq_nil_iff.mpr hspot,
    List.filter_eq_nil_iff.mpr hfunding, List.append_nil, List.append_nil]
  rfl

/-- The moves of the view are the bars of the asset in the order of their times. -/
theorem moves_view : (a.view asset).filterMap Probes.Look.move? =
    (((a.bars asset).map (MarginEvent.perpBar asset)).insertionSort timelineLe).filterMap
      (moveOf asset) := by
  rw [view, filterMap_moves, filter_timeline]

theorem mem_bars_of_move {t : Time} {bar : PriceBar} (h : Probes.Look.move t bar ∈ a.view asset) :
    bar ∈ a.bars asset := by
  obtain ⟨e, he, hmove⟩ := List.mem_filterMap.mp (moves_view ▸ Probes.mem_moves_iff.mpr h)
  obtain ⟨bar', hbar, rfl⟩ := List.mem_map.mp ((List.mem_insertionSort timelineLe).mp he)
  rw [moveOf, MarginEvent.lookOf, if_pos rfl] at hmove
  cases hmove
  exact hbar

/-- A run reports of a perp what its view does to it alone. -/
theorem outcome_eq {pos : PerpPosition} {r : SimulationResult}
    (hmode : params.marginMode = .isolated) (hids : (a.perpPositions.map (·.id)).Nodup)
    (hpos : pos ∈ a.perpPositions) (h : a.run params = .ok r) :
    r.outcome pos =
      ((IsoPerp.machine params pos).run ⟨pos.entryPrice, none⟩ (a.view pos.asset)).outcome pos := by
  obtain ⟨s, hrun, h⟩ := of_bind_ok h
  cases h
  have H := (IsoPerp.Follows.start hids hpos a.initialUsdt a.spotLegs).run hmode hrun
  rw [SimulationResult.outcome, IsoPerp.outcome, H.finalPnl]
  exact congrArg₂ (fun x y => PerpOutcome.mk x y _) H.survived H.liquidations

end MarginInput

/-- The perp has its margin at entry, and at the close of each bar at whose adverse mark it has it:
no check at its last mark finds it in breach. -/
structure PerpPosition.Sound (params : SimParams) (pos : PerpPosition)
    (bars : List PriceBar) : Prop where
  entry : pos.Covers params pos.entryPrice
  close : ∀ bar ∈ bars, pos.Covers params (adverseMark pos bar) → pos.Covers params bar.close

section independence

variable {params : SimParams} {pos : PerpPosition} {a b : MarginInput}

/-- In bars that are in range, a perp is sound if its leverage leaves it the margin at entry. -/
theorem sound_of_inRange {bars : List PriceBar} (hpos : pos.Sized) (h0 : 0 < params.mmPct)
    (h1 : params.mmPct < 1) (hlev : 0 < pos.leverage) (hmargin : pos.leverage * params.mmPct ≤ 1)
    (hbars : ∀ bar ∈ bars, bar.InRange) :
    pos.Sound params bars := by
  constructor
  · have hentry : |pos.qty| * pos.entryPrice = pos.sizeUsdt := by
      rw [abs_of_pos hpos.qty_pos, PerpPosition.qty, div_mul_cancel₀ _ hpos.2.ne']
    rw [PerpPosition.Covers, hentry, perpUnrealizedPnl, sub_self, mul_zero, zero_mul, add_zero,
      le_div_iff₀ hlev, mul_assoc, mul_comm params.mmPct]
    exact mul_le_of_le_one_right hpos.1.le hmargin
  · intro bar hbar hadverse
    have hstake := perpStake_adverse_le_close hpos (hbars bar hbar) h0 h1
    rw [perpStake, perpStake] at hstake
    rw [PerpPosition.Covers] at hadverse ⊢
    linarith

/-- Nothing is found where the perp covers its mark. -/
theorem quiet_of_covers {i : IsoPerp} (h : pos.Covers params i.mark) :
    (IsoPerp.machine params pos).Quiet i :=
  fun _ => IsoPerp.check_of_covers h

theorem quiet_move {bars : List PriceBar} (h : pos.Sound params bars) {bar : PriceBar}
    (hbar : bar ∈ bars) (ts : Time) (i : IsoPerp) :
    (IsoPerp.machine params pos).Quiet ((IsoPerp.machine params pos).move ts bar i) := by
  change (IsoPerp.machine params pos).Quiet (IsoPerp.markClose _ _)
  rw [IsoPerp.markClose]
  split
  · next hdone => exact (IsoPerp.machine params pos).done_probe hdone
  · next hdone =>
    refine quiet_of_covers (h.close bar hbar ?_)
    -- a check that did not liquidate found the margin
    by_contra hcovers
    rw [IsoPerp.check] at hdone
    split at hdone
    · next hor => exact hdone (hor.resolve_right hcovers)
    · exact hdone rfl

/-- In isolated mode the outcome of a perp is that of its bars, whatever else the inputs hold, if
some asset settles at the same times in both or the perp is sound. -/
theorem isolated_independent (hmode : params.marginMode = .isolated)
    (hidsA : (a.perpPositions.map (·.id)).Nodup) (hidsB : (b.perpPositions.map (·.id)).Nodup)
    (hposA : pos ∈ a.perpPositions) (hposB : pos ∈ b.perpPositions)
    (hbars : a.bars pos.asset = b.bars pos.asset)
    (h : (∀ t, a.SettlesAt t ↔ b.SettlesAt t) ∨ pos.Sound params (a.bars pos.asset))
    {ra rb : SimulationResult} (hra : a.run params = .ok ra) (hrb : b.run params = .ok rb) :
    ra.outcome pos = rb.outcome pos := by
  have hmoves : (a.view pos.asset).filterMap Probes.Look.move? =
      (b.view pos.asset).filterMap Probes.Look.move? := by
    rw [MarginInput.moves_view, MarginInput.moves_view, hbars]
  rw [MarginInput.outcome_eq hmode hidsA hposA hra, MarginInput.outcome_eq hmode hidsB hposB hrb]
  congr 1
  rcases h with hsettles | hsound
  · refine Probes.run_eq_of_probed_iff MarginInput.pairwise_view MarginInput.pairwise_view hmoves
      (fun t => ?_) _
    rw [MarginInput.probe_mem_view_iff, MarginInput.probe_mem_view_iff, hsettles]
  · have hquiet := quiet_of_covers (i := ⟨pos.entryPrice, none⟩) hsound.entry
    rw [Probes.Machine.run_of_quiet hquiet fun t bar hbar i _ =>
        quiet_move hsound (MarginInput.mem_bars_of_move hbar) t i,
      Probes.Machine.run_of_quiet hquiet fun t bar hbar i _ =>
        quiet_move (hbars ▸ hsound) (MarginInput.mem_bars_of_move hbar) t i, hmoves]

end independence

theorem MarginInput.run_of_survived {params : SimParams} {a : MarginInput} {pos : PerpPosition}
    {flag : Option Bool} (h : (a.run params).toOption.map (fun r => (r.outcome pos).survived) =
      some flag) :
    ∃ r, a.run params = .ok r ∧ (r.outcome pos).survived = flag := by
  cases hr : a.run params with
  | error e =>
    rw [hr] at h
    cases h
  | ok r =>
    rw [hr] at h
    exact ⟨r, rfl, Option.some.inj h⟩

theorem hundred_ne_zero : (100 : ℚ) ≠ 0 := by decide

/-- A long of 1000 USDT in ETH, 250 times levered. -/
def ethLong : PerpPosition := ⟨"A", "ETH", .long, 1000, 250, 100, 0, hundred_ne_zero⟩

/-- One in BTC, ten times levered. -/
def btcLong : PerpPosition := ⟨"B", "BTC", .long, 1000, 10, 100, 0, hundred_ne_zero⟩

/-- It loses its margin in a bar. -/
def btcOnly : MarginInput := ⟨0, [btcLong], [], Dict.empty.set "BTC" [⟨2, 110, 80, 85⟩], .empty, []⟩

/-- The other one is liquidated when ETH settles. -/
def btcAndEth : MarginInput := {
  btcOnly with
  initialUsdt := 500
  perpPositions := [ethLong, btcLong]
  fundingSettlements := [⟨1, "ETH", 0⟩] }

theorem isolated_independent_btcLong : ∃ ra rb, btcOnly.run { marginMode := .isolated } = .ok ra ∧
    btcAndEth.run { marginMode := .isolated } = .ok rb ∧
      ra.outcome btcLong = rb.outcome btcLong := by
  obtain ⟨ra, hra, _⟩ : ∃ r, btcOnly.run { marginMode := .isolated } = .ok r ∧
      (r.outcome btcLong).survived = some false := MarginInput.run_of_survived (by decide +kernel)
  obtain ⟨rb, hrb, _⟩ : ∃ r, btcAndEth.run { marginMode := .isolated } = .ok r ∧
      (r.outcome btcLong).survived = some false := MarginInput.run_of_survived (by decide +kernel)
  have hsound : btcLong.Sound { marginMode := .isolated } (btcOnly.bars btcLong.asset) := by
    refine sound_of_inRange ⟨?_, ?_⟩ ?_ ?_ ?_ ?_ fun bar hbar => ?_
    · decide +kernel
    · decide +kernel
    · decide +kernel
    · decide +kernel
    · decide +kernel
    · decide +kernel
    · rw [show bar = ⟨2, 110, 80, 85⟩ from List.mem_singleton.mp hbar]
      constructor <;> decide +kernel
  exact ⟨ra, rb, hra, hrb, isolated_independent (a := btcOnly) (b := btcAndEth) rfl
    (by decide) (by decide)
    (by decide) (by decide) rfl (.inr hsound) hra hrb⟩

/-- A long of 1000 USDT, 250 times levered: its margin of 4 is below the 5 that it has to
maintain. -/
def overLevered : PerpPosition := ⟨"A", "BTC", .long, 1000, 250, 100, 0, hundred_ne_zero⟩

def alone : MarginInput := ⟨0, [overLevered], [], .empty, .empty, []⟩

/-- ETH settles once. -/
def besideEth : MarginInput := { alone with fundingSettlements := [⟨1, "ETH", 0⟩] }

/-- A perp in ETH with the same id is liquidated in the one bar of ETH. -/
def besideNamesake : MarginInput := {
  alone with
  perpPositions := [overLevered, ethLong]
  perpPriceBars := Dict.empty.set "ETH" [⟨1, 100, 100, 100⟩] }

/-- A settlement of another asset makes the simulator check the perp, and a perp of the same id
shares its flag: neither may differ. -/
theorem not_isolated_independent :
    (¬ ∀ (params : SimParams) (pos : PerpPosition) (a b : MarginInput) ra rb,
      params.marginMode = .isolated →
      (a.perpPositions.map (·.id)).Nodup → (b.perpPositions.map (·.id)).Nodup →
      pos ∈ a.perpPositions → pos ∈ b.perpPositions → a.bars pos.asset = b.bars pos.asset →
      a.settlements pos.asset = b.settlements pos.asset → a.run params = .ok ra →
        b.run params = .ok rb →
      ra.outcome pos = rb.outcome pos) ∧
    ¬ ∀ (params : SimParams) (pos : PerpPosition)
    (a b : MarginInput) ra rb, params.marginMode = .isolated →
      pos ∈ a.perpPositions → pos ∈ b.perpPositions → a.bars pos.asset = b.bars pos.asset →
      a.fundingSettlements = b.fundingSettlements → a.run params = .ok ra → b.run params = .ok rb →
      ra.outcome pos = rb.outcome pos := by
  obtain ⟨r, hr, hsurvived⟩ : ∃ r, alone.run { marginMode := .isolated } = .ok r ∧
      (r.outcome overLevered).survived = some true :=
        MarginInput.run_of_survived (by decide +kernel)
  refine ⟨fun h => ?_, fun h => ?_⟩
  · obtain ⟨r', hr', hgone⟩ : ∃ r, besideEth.run { marginMode := .isolated } = .ok r ∧
        (r.outcome overLevered).survived = some false :=
          MarginInput.run_of_survived (by decide +kernel)
    have heq :=
      h { marginMode := .isolated } overLevered alone besideEth r r' rfl (by decide) (by decide)
      (by decide) (by decide) rfl rfl hr hr'
    rw [heq, hgone] at hsurvived
    cases hsurvived
  · obtain ⟨r', hr', hgone⟩ : ∃ r, besideNamesake.run { marginMode := .isolated } = .ok r ∧
        (r.outcome overLevered).survived = some false :=
          MarginInput.run_of_survived (by decide +kernel)
    have heq :=
      h { marginMode := .isolated } overLevered alone besideNamesake r r' rfl
        (by decide) (by decide)
      rfl rfl hr hr'
    rw [heq, hgone] at hsurvived
    cases hsurvived

end P300
