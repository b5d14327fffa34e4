import Mathlib.Algebra.BigOperators.Group.List.Basic
import Mathlib.Logic.Relation
import Mathlib.Tactic.Ring
import P300.Margin.Sim

/-!
# Cash in the margin simulator

Every event of the timeline is a sequence of moves: an open perp is liquidated, an open perp pays
funding, or only marks and counters change. Each move keeps the cash account: what is left is what
was there at first, less the funding paid, plus what the liquidations realized.
-/

namespace P300

open Relation

/-! ## Moves -/

/-- What a part of an event can do. -/
inductive MarginMove : MarginState → MarginState → Prop
  | liquidate {s : MarginState} {pos : PerpPosition} (params : SimParams) (ts : Time) (mark : ℚ)
    (reason : LiquidationReason) (isOpen : pos ∈ s.openPerps) :
    MarginMove s (doLiquidate params pos ts mark reason s)
  | pay {s : MarginState} {pos : PerpPosition} (amount : ℚ) (isOpen : pos ∈ s.openPerps) :
    MarginMove s { s with cash := s.cash - amount, fundingPaidTotal := s.fundingPaidTotal + amount }
  | mark (s : MarginState) (perpMarks spotMarks : Dict String ℚ) (barsProcessed : ℕ) :
    MarginMove s { s with perpMarks, spotMarks, barsProcessed }

theorem foldlM_moves {α : Type} {f : MarginState → α → Except String MarginState}
    (hf : ∀ s a s', f s a = .ok s' → ReflTransGen MarginMove s s') {l : List α} {s s' : MarginState}
    (h : l.foldlM f s = .ok s') : ReflTransGen MarginMove s s' :=
  foldlM_inv (P := ReflTransGen MarginMove s)
    (fun t t' a _ hmoves ht => hmoves.trans (hf t a t' ht)) .refl h

variable {params : SimParams} {spotLegs : List SpotLeg} {s s' : MarginState}

/-- A check leaves the state or liquidates the perp that it was called for. -/
theorem liquidateOneIfBreached_cases {pos : PerpPosition} {ts : Time} {mark : ℚ}
    (h : liquidateOneIfBreached params spotLegs pos ts mark s = .ok s') :
    s' = s ∨ pos ∈ s.openPerps ∧ ∃ reason, s' = doLiquidate params pos ts mark reason s := by
  rw [liquidateOneIfBreached] at h
  split at h
  · cases h
    exact .inl rfl
  next hopen =>
  have hopen : pos ∈ s.openPerps := not_not.mp hopen
  split at h
  · obtain ⟨health, _, h⟩ := of_bind_ok h
    dsimp only at h
    split at h
    · cases h
      exact .inr ⟨hopen, _, rfl⟩
    · cases h
      exact .inl rfl
  · dsimp only at h
    split at h
    · cases h
      exact .inr ⟨hopen, _, rfl⟩
    · cases h
      exact .inl rfl

theorem liquidateOneIfBreached_moves {pos : PerpPosition} {ts : Time} {mark : ℚ}
    (h : liquidateOneIfBreached params spotLegs pos ts mark s = .ok s') :
    ReflTransGen MarginMove s s' := by
  obtain rfl | ⟨hopen, reason, rfl⟩ := liquidateOneIfBreached_cases h
  · exact .refl
  · exact .single (.liquidate params ts mark reason hopen)

theorem liquidateBreaches_moves {ts : Time} (h : liquidateBreaches params spotLegs ts s = .ok s') :
    ReflTransGen MarginMove s s' :=
  foldlM_moves (fun _ _ _ h => liquidateOneIfBreached_moves h) h

theorem checkInBar_moves {bar : PriceBar} {pos : PerpPosition}
    (h : checkInBar params spotLegs bar s pos = .ok s') : ReflTransGen MarginMove s s' := by
  obtain ⟨s₁, h₁, h⟩ := of_bind_ok h
  split at h
  · cases h
    exact (liquidateOneIfBreached_moves h₁).tail
      (.mark s₁ (s₁.perpMarks.set pos.id bar.close) s₁.spotMarks s₁.barsProcessed)
  · cases h
    exact liquidateOneIfBreached_moves h₁

/-- The perps that pay a settlement. -/
def MarginState.charged (s : MarginState) (f : FundingSettlement) : List PerpPosition :=
  s.openPerps.filter fun pos => pos.asset = f.asset

theorem payFunding_openPerps (f : FundingSettlement) (s : MarginState) (pos : PerpPosition) :
    (payFunding f s pos).openPerps = s.openPerps := by
  rw [payFunding]
  split <;> rfl

theorem foldl_payFunding_moves {f : FundingSettlement} {l : List PerpPosition} {s : MarginState}
    (hl : ∀ pos ∈ l, pos ∈ s.openPerps) :
    ReflTransGen MarginMove s (l.foldl (payFunding f) s) := by
  induction l generalizing s with
  | nil => exact .refl
  | cons pos l ih =>
    have hpay : ReflTransGen MarginMove s (payFunding f s pos) := by
      rw [payFunding]
      split
      · exact .refl
      · exact .single (.pay _ (hl pos List.mem_cons_self))
    refine hpay.trans (ih fun pos' hpos' => ?_)
    rw [payFunding_openPerps]
    exact hl pos' (List.mem_cons_of_mem _ hpos')

/-- A settlement takes from the cash what the charged perps owe. -/
theorem foldl_payFunding (f : FundingSettlement) (l : List PerpPosition) (s : MarginState) :
    (l.foldl (payFunding f) s).fundingPaidTotal = s.fundingPaidTotal +
      ((l.filter fun pos => pos.asset = f.asset).map fun pos => fundingPayment pos f.rate).sum := by
  induction l generalizing s with
  | nil => exact (add_zero _).symm
  | cons pos l ih =>
    rw [List.foldl_cons, ih, payFunding, List.filter_cons]
    by_cases hasset : pos.asset = f.asset
    · rw [if_neg (not_not.mpr hasset), if_pos (decide_eq_true hasset), List.map_cons, List.sum_cons,
        ← add_assoc]
    · rw [if_pos hasset, if_neg (by simpa using hasset)]

theorem step_moves {event : MarginEvent} (h : s.step params spotLegs event = .ok s') :
    ReflTransGen MarginMove s s' := by
  unfold MarginState.step at h
  split at h
  · cases h
    exact .refl
  cases event with
  | funding f =>
    exact (foldl_payFunding_moves fun pos hpos => hpos).trans (liquidateBreaches_moves h)
  | perpBar asset bar =>
    exact (ReflTransGen.single (.mark s s.perpMarks s.spotMarks (s.barsProcessed + 1))).trans
      (foldlM_moves (fun _ _ _ h => checkInBar_moves h) h)
  | spotBar asset bar =>
    cases h
    exact .single (.mark s s.perpMarks (s.spotMarks.set asset bar.close) s.barsProcessed)

theorem marginRun_moves {events : List MarginEvent}
    (h : marginRun params spotLegs s events = .ok s') :
    ReflTransGen MarginMove s s' :=
  foldlM_moves (fun _ _ _ h => step_moves h) h

/-! ## The cash account -/

/-- The profit that the liquidations realized. -/
def realizedPnl (closedPnl : Dict String ℚ) (liquidations : List LiquidationEvent) : ℚ :=
  (liquidations.map fun e => (closedPnl.get? e.positionId).getD 0).sum

/-- The account of a walk over `perps` that began with `initial`: the cash, and each perp either
open or liquidated once. -/
structure MarginAccount (initial : ℚ) (perps : List PerpPosition) (s : MarginState) : Prop where
  cash : s.cash = initial - s.fundingPaidTotal + realizedPnl s.closedPnl s.liquidations
  openIds : (s.openPerps.map (·.id)).Nodup
  once : (s.liquidations.map (·.positionId)).Nodup
  closed : ∀ e ∈ s.liquidations, ∀ p ∈ s.openPerps, p.id ≠ e.positionId
  isOpen : ∀ p ∈ s.openPerps, p ∈ perps
  ofPerp : ∀ e ∈ s.liquidations, ∃ p ∈ perps, p.id = e.positionId
  survived : ∀ p ∈ perps,
    s.survived.get? p.id = some (decide (p.id ∉ s.liquidations.map (·.positionId)))

variable {initial : ℚ} {perps : List PerpPosition}

theorem realizedPnl_append (closedPnl : Dict String ℚ) (l l' : List LiquidationEvent) :
    realizedPnl closedPnl (l ++ l') = realizedPnl closedPnl l + realizedPnl closedPnl l' := by
  rw [realizedPnl, List.map_append, List.sum_append, ← realizedPnl, ← realizedPnl]

theorem realizedPnl_singleton (closedPnl : Dict String ℚ) (e : LiquidationEvent) :
    realizedPnl closedPnl [e] = (closedPnl.get? e.positionId).getD 0 := by
  rw [realizedPnl, List.map_singleton, List.sum_singleton]

theorem realizedPnl_set {closedPnl : Dict String ℚ} {l : List LiquidationEvent} {id : String}
    (hid : ∀ e ∈ l, id ≠ e.positionId) (pnl : ℚ) :
    realizedPnl (closedPnl.set id pnl) l = realizedPnl closedPnl l := by
  rw [realizedPnl, realizedPnl]
  congr 1
  refine List.map_congr_left fun e he => ?_
  rw [Dict.get?_set, if_neg (hid e he).symm]

/-- Among distinct ids, an erased perp takes its id with it. -/
theorem id_ne_of_mem_erase {l : List PerpPosition} (hl : (l.map (·.id)).Nodup)
    {pos p : PerpPosition} (hpos : pos ∈ l) (hp : p ∈ l.erase pos) : p.id ≠ pos.id := by
  intro hid
  have hmem : p ∈ l := List.mem_of_mem_erase hp
  have heq : p = pos := List.inj_on_of_nodup_map hl hmem hpos hid
  rw [heq, (hl.of_map _).mem_erase_iff] at hp
  exact hp.1 rfl

theorem MarginAccount.liquidate (h : MarginAccount initial perps s) {pos : PerpPosition}
    (hopen : pos ∈ s.openPerps) (params : SimParams) (ts : Time) (mark : ℚ)
    (reason : LiquidationReason) :
    MarginAccount initial perps (doLiquidate params pos ts mark reason s) := by
  have hnew : ∀ e ∈ s.liquidations, pos.id ≠ e.positionId := fun e he => h.closed e he pos hopen
  constructor
  · change s.cash + _ = initial - s.fundingPaidTotal + realizedPnl (s.closedPnl.set pos.id _) _
    rw [doLiquidate, realizedPnl_append, realizedPnl_set hnew, h.cash, realizedPnl_singleton,
      Dict.get?_set, if_pos rfl, Option.getD_some]
    ring
  · exact h.openIds.sublist (List.erase_sublist.map _)
  · rw [doLiquidate, List.map_append]
    refine h.once.append (List.nodup_singleton _) (List.disjoint_singleton.mpr fun hmem => ?_)
    obtain ⟨e, he, hid⟩ := List.mem_map.mp hmem
    exact hnew e he hid.symm
  · intro e he p hp
    rcases List.mem_append.mp he with he | he
    · exact h.closed e he p (List.mem_of_mem_erase hp)
    · rw [List.mem_singleton.mp he]
      exact id_ne_of_mem_erase h.openIds hopen hp
  · exact fun p hp => h.isOpen p (List.mem_of_mem_erase hp)
  · intro e he
    rcases List.mem_append.mp he with he | he
    · exact h.ofPerp e he
    · rw [List.mem_singleton.mp he]
      exact ⟨pos, h.isOpen pos hopen, rfl⟩
  · intro p hp
    change (s.survived.set pos.id false).get? p.id = _
    rw [Dict.get?_set, doLiquidate, List.map_append, List.map_singleton]
    by_cases hid : p.id = pos.id
    · rw [if_pos hid, hid]
      simp
    · rw [if_neg hid, h.survived p hp]
      simp [hid]

theorem MarginAccount.move (h : MarginAccount initial perps s) (hmove : MarginMove s s') :
    MarginAccount initial perps s' := by
  cases hmove with
  | liquidate params ts mark reason hopen => exact h.liquidate hopen params ts mark reason
  | pay amount hopen =>
    refine ⟨?_, h.openIds, h.once, h.closed, h.isOpen, h.ofPerp, h.survived⟩
    change s.cash - amount = initial - (s.fundingPaidTotal + amount) + _
    rw [h.cash]
    ring
  | mark => exact ⟨h.cash, h.openIds, h.once, h.closed, h.isOpen, h.ofPerp, h.survived⟩

theorem MarginAccount.moves (h : MarginAccount initial perps s)
    (hmoves : ReflTransGen MarginMove s s') : MarginAccount initial perps s' := by
  induction hmoves with
  | refl => exact h
  | tail _ hmove ih => exact ih.move hmove

/-- A liquidation is final: later moves keep it and its profit. -/
theorem liquidated_settled (h : MarginAccount initial perps s)
    (hmoves : ReflTransGen MarginMove s s') {e : LiquidationEvent} (he : e ∈ s.liquidations) :
    e ∈ s'.liquidations ∧ s'.closedPnl.get? e.positionId = s.closedPnl.get? e.positionId := by
  induction hmoves with
  | refl => exact ⟨he, rfl⟩
  | tail hbefore hmove ih =>
    obtain ⟨hmem, hpnl⟩ := ih
    have hacc := h.moves hbefore
    cases hmove with
    | liquidate params ts mark reason hopen =>
      refine ⟨List.mem_append_left _ hmem, ?_⟩
      rw [← hpnl]
      change (Dict.set _ _ _).get? _ = _
      rw [Dict.get?_set, if_neg (hacc.closed e hmem _ hopen).symm]
    | pay amount hopen => exact ⟨hmem, hpnl⟩
    | mark => exact ⟨hmem, hpnl⟩

/-! ## The whole walk -/

/-- A dictionary with one value for each id of a list. -/
theorem get?_foldl_id {ν : Type} (f : PerpPosition → ν) (l : List PerpPosition) (d : Dict String ν)
    (id : String) : (l.foldl (fun d p => d.set p.id (f p)) d).get? id =
      ((l.reverse.find? fun p => p.id = id).map f).or (d.get? id) := by
  induction l generalizing d with
  | nil => rfl
  | cons p l ih =>
    rw [List.foldl_cons, ih, Dict.get?_set, List.reverse_cons, List.find?_append]
    cases l.reverse.find? fun p => p.id = id with
    | some q => rfl
    | none =>
      by_cases hid : id = p.id
      · rw [if_pos hid]
        simp [hid]
      · rw [if_neg hid]
        simp [Ne.symm hid]

theorem marginStart_account (hids : (perps.map (·.id)).Nodup) (initial : ℚ)
    (spotLegs : List SpotLeg) : MarginAccount initial perps
      (marginStart initial perps spotLegs) := by
  refine ⟨?_, hids, .nil, fun e he => (by cases he), fun p hp => hp, fun e he => (by cases he), ?_⟩
  · change initial = initial - 0 + (0 : ℚ)
    ring
  · intro p hp
    change (perps.foldl (fun d p => d.set p.id true) Dict.empty).get? p.id =
      some (decide (p.id ∉ []))
    have hsome : (perps.reverse.find? fun q => q.id = p.id).isSome :=
      List.find?_isSome.mpr ⟨p, List.mem_reverse.mpr hp, decide_eq_true rfl⟩
    obtain ⟨q, hq⟩ := Option.isSome_iff_exists.mp hsome
    rw [get?_foldl_id (fun _ => true), hq]
    rfl

/-- What the simulator promises of its cash. -/
structure ConservesCash (params : SimParams) (initial : ℚ) (perps : List PerpPosition)
    (spotLegs : List SpotLeg) (timeline : List MarginEvent) (r : SimulationResult) : Prop where
  cash : r.finalUsdt = initial - r.fundingPaid + realizedPnl r.finalPerpPnl r.liquidations
  once : (r.liquidations.map (·.positionId)).Nodup
  ofPerp : ∀ e ∈ r.liquidations, ∃ p ∈ perps, p.id = e.positionId
  reported : ∀ p ∈ perps, (r.survived.get? p.id).isSome
  survived : ∀ p ∈ perps, r.survived.get? p.id = some false ↔
    (r.liquidations.map (·.positionId)).count p.id = 1
  /-- What was liquidated after some events stays so, at the profit it then had. -/
  settled : ∀ before after s, timeline = before ++ after →
    marginRun params spotLegs (marginStart initial perps spotLegs) before = .ok s →
    ∀ e ∈ s.liquidations, e ∈ r.liquidations ∧
      r.finalPerpPnl.get? e.positionId = s.closedPnl.get? e.positionId
  /-- A settlement is paid by the perps that it charges, none of which was liquidated before. -/
  unpaid : ∀ before f after s s', timeline = before ++ .funding f :: after →
    marginRun params spotLegs (marginStart initial perps spotLegs) before = .ok s →
    s.step params spotLegs (.funding f) = .ok s' →
    s'.fundingPaidTotal = s.fundingPaidTotal +
      ((s.charged f).map fun pos => fundingPayment pos f.rate).sum ∧
    ∀ e ∈ s.liquidations, ∀ p ∈ s.charged f, p.id ≠ e.positionId

theorem marginRun_append {before after : List MarginEvent} :
    marginRun params spotLegs s (before ++ after) =
      marginRun params spotLegs s before >>= fun s => marginRun params spotLegs s after := by
  rw [marginRun, List.foldlM_append]
  rfl

theorem liquidateOneIfBreached_fundingPaid {pos : PerpPosition} {ts : Time} {mark : ℚ}
    (h : liquidateOneIfBreached params spotLegs pos ts mark s = .ok s') :
    s'.fundingPaidTotal = s.fundingPaidTotal := by
  obtain rfl | ⟨_, reason, rfl⟩ := liquidateOneIfBreached_cases h <;> rfl

theorem liquidateBreaches_fundingPaid {ts : Time}
    (h : liquidateBreaches params spotLegs ts s = .ok s') :
    s'.fundingPaidTotal = s.fundingPaidTotal :=
  foldlM_inv (P := fun t => t.fundingPaidTotal = s.fundingPaidTotal)
    (fun _ _ _ _ hpaid ht => (liquidateOneIfBreached_fundingPaid ht).trans hpaid) rfl h

theorem step_funding_paid {f : FundingSettlement}
    (h : s.step params spotLegs (.funding f) = .ok s') :
    s'.fundingPaidTotal = s.fundingPaidTotal +
      ((s.charged f).map fun pos => fundingPayment pos f.rate).sum := by
  unfold MarginState.step at h
  split at h
  · next hnone =>
    cases h
    rw [MarginState.charged, hnone]
    exact (add_zero _).symm
  · exact (liquidateBreaches_fundingPaid h).trans (foldl_payFunding f s.openPerps s)

/-- Realizing the survivors leaves the profit of what was liquidated. -/
theorem result_finalPerpPnl (h : MarginAccount initial perps s) {e : LiquidationEvent}
    (he : e ∈ s.liquidations) :
    s.result.finalPerpPnl.get? e.positionId = s.closedPnl.get? e.positionId := by
  have hnone : (s.openPerps.reverse.find? fun p => p.id = e.positionId) = none :=
    List.find?_eq_none.mpr fun p hp => by
      simpa using h.closed e he p (List.mem_reverse.mp hp)
  rw [MarginState.result, get?_foldl_id (fun pos =>
    perpUnrealizedPnl pos (perpMark s.perpMarks pos)), hnone]
  rfl

theorem simulatePositionPath_conservesCash {initial : ℚ} {perps : List PerpPosition}
    {spotLegs : List SpotLeg} {perpBars spotBars : Dict String (List PriceBar)}
    {settlements : List FundingSettlement} {params : SimParams} {r : SimulationResult}
    (hids : (perps.map (·.id)).Nodup)
    (h : simulatePositionPath initial perps spotLegs perpBars spotBars settlements params = .ok r) :
    ConservesCash params initial perps spotLegs
      (marginTimeline perpBars spotBars settlements) r := by
  obtain ⟨last, hrun, hr⟩ := of_bind_ok h
  cases hr
  have hstart := marginStart_account hids initial spotLegs
  have hlast := hstart.moves (marginRun_moves hrun)
  constructor
  · have hpnl : realizedPnl last.result.finalPerpPnl last.liquidations =
        realizedPnl last.closedPnl last.liquidations := by
      rw [realizedPnl, realizedPnl]
      congr 1
      exact List.map_congr_left fun e he => by rw [result_finalPerpPnl hlast he]
    exact hlast.cash.trans (by rw [← hpnl]; rfl)
  · exact hlast.once
  · exact hlast.ofPerp
  · intro p hp
    exact Option.isSome_iff_exists.mpr ⟨_, hlast.survived p hp⟩
  · intro p hp
    change last.survived.get? p.id = some false ↔
      (last.liquidations.map (·.positionId)).count p.id = 1
    rw [hlast.survived p hp, Option.some_inj, decide_eq_false_iff_not, not_not]
    constructor
    · exact fun hmem => List.count_eq_one_of_mem hlast.once hmem
    · intro hcount
      exact List.count_pos_iff.mp (by omega)
  · intro before after s htimeline hbefore e he
    rw [htimeline, marginRun_append, hbefore] at hrun
    obtain ⟨hmem, hpnl⟩ := liquidated_settled (hstart.moves (marginRun_moves hbefore))
      (marginRun_moves hrun) he
    exact ⟨hmem, (result_finalPerpPnl hlast hmem).trans hpnl⟩
  · intro before f after s s' _ hbefore hstep
    refine ⟨step_funding_paid hstep, fun e he p hp => ?_⟩
    have hacc := hstart.moves (marginRun_moves hbefore)
    exact hacc.closed e he p (List.mem_of_mem_filter hp)

/-- A short of 10 BTC and a long of 10 ETH. -/
def pumpPerps : List PerpPosition :=
  [⟨"A", "BTC", .short, 1000, 10, 100, 0, by decide⟩,
    ⟨"B", "ETH", .long, 100, 10, 10, 0, by decide⟩]

/-- BTC rises from 100 to 130. -/
def pumpBars : Dict String (List PriceBar) :=
  (Dict.empty.set "BTC" [⟨1, 101, 99, 100⟩, ⟨2, 130, 100, 125⟩]).set "ETH" [⟨2, 13, 12, 12⟩]

def pumpSettlements : List FundingSettlement := [⟨1, "BTC", 1 / 1000⟩, ⟨3, "BTC", 1 / 1000⟩]

theorem simulatePositionPath_conservesCash_pump :
    ∃ r, simulatePositionPath 300 pumpPerps [] pumpBars .empty pumpSettlements = .ok r ∧
      r.liquidations.map (·.positionId) = ["A"] ∧
      ConservesCash {} 300 pumpPerps [] (marginTimeline pumpBars .empty pumpSettlements) r := by
  have hrun : (simulatePositionPath 300 pumpPerps [] pumpBars .empty pumpSettlements).toOption.map
      (fun r => r.liquidations.map (·.positionId)) = some ["A"] := by decide +kernel
  cases h : simulatePositionPath 300 pumpPerps [] pumpBars .empty pumpSettlements with
  | error e =>
    rw [h] at hrun
    cases hrun
  | ok r =>
    rw [h] at hrun
    exact ⟨r, rfl, Option.some.inj hrun, simulatePositionPath_conservesCash (by decide) h⟩

end P300
