import P300.Dispatch.Caps

/-!
# The clamp for one candidate

`margin_headroom.clamp_to_headroom` decides on one candidate against the gross that the ledger
reports. A sleeve that asks it before each opening is given what the loop of `reconcile_intents`
books, as long as nothing but the gross cap comes in between.
-/

namespace P300

inductive ClampStatus
  | full
  | reduced
  | tooSmall
  | noHeadroom
  deriving DecidableEq

/-- The reason of a clamp, with the values that its text shows. -/
inductive ClampReason
  | overCap (current cap candidate : ℚ)
  | tooSmall (headroom minReduceFraction candidate : ℚ)
  | clamped (candidate headroom : ℚ)
  deriving DecidableEq

/-- `clamp_to_headroom`, where `current` and `cap` are what `current_gross_notional_usdt` and
`gross_cap_usdt` return for the variant. -/
def clampToHeadroom (current cap candidateNotional minReduceFraction : ℚ) :
    ℚ × ClampStatus × Option ClampReason :=
  let headroom := cap - current
  if candidateNotional ≤ 0 then (0, .full, none)
  else if current + candidateNotional ≤ cap + capTolerance then (candidateNotional, .full, none)
  else if headroom ≤ 0 then (0, .noHeadroom, some (.overCap current cap candidateNotional))
  else if headroom < minReduceFraction * candidateNotional then
    (0, .tooSmall, some (.tooSmall headroom minReduceFraction candidateNotional))
  else (headroom, .reduced, some (.clamped candidateNotional headroom))

/-- One candidate after the other, each approved notional added to the gross before the next. -/
def clampEach (cap minReduceFraction current : ℚ) : List ℚ → List ℚ
  | [] => []
  | candidate :: candidates =>
    let clamped := (clampToHeadroom current cap candidate minReduceFraction).1
    clamped :: clampEach cap minReduceFraction (current + clamped) candidates

/-- The notional of a LONG or SHORT that a result approves, 0 if it is rejected. -/
def ReconcileResult.approvedNotional (capital : ℚ) (r : ReconcileResult) : ℚ :=
  r.approvedPosition.elim 0 fun position => position.2.notional capital

section Step

variable {limits : ReconcileLimits} {s : ReconcileState} {c : Candidate}

theorem approvedNotional_of_approved {capital : ℚ} {intent : Intent} {status : ReconcileStatus}
    {reason : ReconcileReason} {sleeveId : String} (happroved : status.IsApproved)
    (hperp : intent.direction.Perp) :
    (⟨some intent, status, reason, sleeveId⟩ : ReconcileResult).approvedNotional capital =
      intent.notional capital := by
  rw [ReconcileResult.approvedNotional, ReconcileResult.approvedPosition, if_pos happroved]
  simp [hperp, Option.filter]

/-- One decision of the loop books what the clamp returns. -/
theorem consider_clamp (hperp : c.intent.direction.Perp) (hslot : s.opposing c = none)
    (hcap : limits.sameDirectionCapUsdt = none)
    (hnonneg : 0 ≤ c.intent.notional limits.capitalUsdt) :
    let clamped := (clampToHeadroom (limits.currentGrossUsedUsdt + s.approvedNotional)
      limits.grossCapUsdt (c.intent.notional limits.capitalUsdt) limits.minReduceFraction).1
    (s.consider limits c).approvedNotional = s.approvedNotional + clamped ∧
      ∃ r, (s.consider limits c).results = s.results ++ [r] ∧ r.sleeveId = c.sleeveId ∧
        r.approvedNotional limits.capitalUsdt = clamped := by
  rw [ReconcileState.consider, if_neg (not_not.mpr hperp), hslot, clampToHeadroom]
  dsimp only
  by_cases hzero : c.intent.notional limits.capitalUsdt ≤ 0
  · rw [if_pos hzero, if_pos hzero]
    refine ⟨(add_zero _).symm, _, rfl, rfl, ?_⟩
    rw [approvedNotional_of_approved (by decide) hperp]
    exact le_antisymm hzero hnonneg
  rw [if_neg hzero, if_neg hzero, overDirectionCap_none hcap]
  dsimp only
  by_cases hfits : limits.currentGrossUsedUsdt + s.approvedNotional +
      c.intent.notional limits.capitalUsdt ≤ limits.grossCapUsdt + capTolerance
  · rw [if_pos hfits, if_pos hfits]
    refine ⟨book_approvedNotional, _, book_results, rfl, ?_⟩
    rw [approvedNotional_of_approved (by split <;> decide) hperp]
  rw [if_neg hfits, if_neg hfits]
  by_cases hroom : limits.grossCapUsdt - (limits.currentGrossUsedUsdt + s.approvedNotional) ≤ 0
  · rw [if_pos hroom, if_pos hroom]
    exact ⟨(add_zero _).symm, _, rfl, rfl, rfl⟩
  rw [if_neg hroom, if_neg hroom]
  by_cases hsmall : limits.grossCapUsdt - (limits.currentGrossUsedUsdt + s.approvedNotional) <
      limits.minReduceFraction * c.intent.notional limits.capitalUsdt
  · rw [if_pos hsmall, if_pos hsmall]
    exact ⟨(add_zero _).symm, _, rfl, rfl, rfl⟩
  rw [if_neg hsmall, if_neg hsmall]
  refine ⟨book_approvedNotional, _, book_results, rfl, ?_⟩
  have hreduced : ∀ alloc, (c.intent.withAllocation alloc).direction.Perp := fun _ => hperp
  rw [approvedNotional_of_approved (by decide) (hreduced _)]
  exact notional_reduced (ne_of_gt (not_le.mp hzero))

end Step

/-! ## A run -/

/-- The candidates to come are LONGs and SHORTs of non-negative notional, and no slot is taken on
the asset of a directional one, nor will it be by another. -/
structure Unopposed (capital : ℚ) (s : ReconcileState) (cs : List Candidate) : Prop where
  perp : ∀ c ∈ cs, c.intent.direction.Perp
  nonneg : ∀ c ∈ cs, 0 ≤ c.intent.notional capital
  free : ∀ c ∈ cs, c.sleeveId ∉ neutralStrategies → s.approvedByAsset.get? c.intent.asset = none
  nodup : ((cs.filter fun c => c.sleeveId ∉ neutralStrategies).map (·.intent.asset)).Nodup

section Run

variable {limits : ReconcileLimits} {s : ReconcileState} {c : Candidate} {cs : List Candidate}

theorem Unopposed.opposing (h : Unopposed limits.capitalUsdt s (c :: cs)) :
    s.opposing c = none := by
  rw [ReconcileState.opposing]
  split
  · rfl
  · next hdirectional => rw [h.free c List.mem_cons_self hdirectional]; rfl

theorem Unopposed.step (h : Unopposed limits.capitalUsdt s (c :: cs)) :
    Unopposed limits.capitalUsdt (s.consider limits c) cs := by
  have htail : ∀ c' ∈ cs, c' ∈ c :: cs := fun c' hc' => List.mem_cons_of_mem c hc'
  have hnodup := h.nodup
  rw [List.filter_cons] at hnodup
  refine ⟨fun c' hc' => h.perp c' (htail c' hc'), fun c' hc' => h.nonneg c' (htail c' hc'),
    fun c' hc' hdirectional => ?_, ?_⟩
  · have hfree := h.free c' (htail c' hc') hdirectional
    have houtcome := consider_outcome limits s c
    generalize s.consider limits c = s' at houtcome
    cases houtcome with
    | pass _ => exact hfree
    | reject _ => exact hfree
    | take _ _ _ _ _ _ _ _ _ =>
      rw [book_slot, if_neg]
      · exact hfree
      · rintro ⟨hc, hasset⟩
        rw [if_pos (decide_eq_true hc), List.map_cons, List.nodup_cons] at hnodup
        exact hnodup.1 (List.mem_map.mpr ⟨c',
          List.mem_filter.mpr ⟨hc', decide_eq_true hdirectional⟩, hasset.symm⟩)
  · split at hnodup
    · exact (List.nodup_cons.mp hnodup).2
    · exact hnodup

/-- The loop approves what the clamps return one after the other. -/
theorem foldl_consider_clampEach (hcap : limits.sameDirectionCapUsdt = none)
    (h : Unopposed limits.capitalUsdt s cs) :
    ∃ rs, (cs.foldl (ReconcileState.consider limits) s).results = s.results ++ rs ∧
      rs.map (fun r => (r.sleeveId, r.approvedNotional limits.capitalUsdt)) =
        (cs.map (·.sleeveId)).zip (clampEach limits.grossCapUsdt limits.minReduceFraction
          (limits.currentGrossUsedUsdt + s.approvedNotional)
          (cs.map fun c => c.intent.notional limits.capitalUsdt)) := by
  induction cs generalizing s with
  | nil => exact ⟨[], (List.append_nil _).symm, rfl⟩
  | cons c cs ih =>
    obtain ⟨hbooked, r, hr, hid, hn⟩ := consider_clamp (h.perp c List.mem_cons_self) h.opposing hcap
      (h.nonneg c List.mem_cons_self)
    obtain ⟨rs, hrs, hall⟩ := ih h.step
    refine ⟨r :: rs, ?_, ?_⟩
    · rw [List.foldl_cons, hrs, hr, List.append_assoc]
      rfl
    · rw [List.map_cons, hall, hbooked, hid, hn, ← add_assoc]
      rfl

end Run

/-! ## One directional intent for each asset -/

section Agree

variable {limits : ReconcileLimits} {intents σ : List (String × Intent)}

/-- A group has one member at most, so nothing is pooled. -/
theorem not_isPooled_of_nodup
    (h : ((intents.filter Directional).map fun item => item.2.asset).Nodup)
    (item : String × Intent) :
    ¬ IsPooled intents item := by
  intro hpooled
  rw [IsPooled, poolMembers] at hpooled
  cases hkey : poolKey item with
  | none =>
    rw [hkey] at hpooled
    cases hpooled
  | some key =>
    rw [hkey] at hpooled
    have hsub : (intents.filter fun item => poolKey item = some key).Sublist
        (intents.filter Directional) := by
      refine List.monotone_filter_right intents fun item hitem => ?_
      have hitem : poolKey item = some key := of_decide_eq_true hitem
      by_contra hneutral
      have hnone : poolKey item = none := if_neg fun hkey => hneutral (decide_eq_true hkey.2)
      rw [hnone] at hitem
      cases hitem
    have hassets : (intents.filter fun item => poolKey item = some key).map
        (fun item => item.2.asset) =
        List.replicate (poolGroup intents key).length key.1 := by
      rw [List.eq_replicate_iff, poolGroup, List.length_map, List.length_map]
      refine ⟨rfl, fun asset hasset => ?_⟩
      obtain ⟨item, hitem, rfl⟩ := List.mem_map.mp hasset
      rw [poolKey_eq (of_decide_eq_true (List.mem_filter.mp hitem).2)]
    have hnodup := h.sublist (hsub.map fun item => item.2.asset)
    rw [hassets, List.nodup_replicate] at hnodup
    exact absurd hpooled (by simpa using Nat.lt_succ_of_le hnodup)

/-- The notional that `reconcile_intents` approves for every intent is what `clamp_to_headroom`
returns when the intents come one after the other in the order of their keys. -/
theorem reconcile_eq_clampEach (hperp : ∀ item ∈ intents, item.2.direction.Perp)
    (halloc : ∀ item ∈ intents, 0 ≤ item.2.allocationPct)
    (hkeys : (intents.map priorityKey).Nodup)
    (hone : ((intents.filter Directional).map fun item => item.2.asset).Nodup)
    (hopens : ∀ asset, limits.existing asset = none) (hcap : limits.sameDirectionCapUsdt = none)
    (hcapital : 0 < limits.capitalUsdt) (hleverage : ∀ item ∈ intents, 0 < item.2.leverage)
    (hσ : σ.Perm intents) (hsorted : σ.Pairwise itemLe) :
    (reconcileIntents limits intents).map
      (fun r => (r.sleeveId, r.approvedNotional limits.capitalUsdt)) =
      (σ.map Prod.fst).zip (clampEach limits.grossCapUsdt limits.minReduceFraction
        limits.currentGrossUsedUsdt (σ.map fun item => item.2.notional limits.capitalUsdt)) := by
  have hmem : ∀ {item}, item ∈ σ ↔ item ∈ intents := hσ.mem_iff
  have hsame : ∀ item, candidateOf intents item = ⟨item.1, item.2, false⟩ := fun item => by
    rw [candidateOf, pooledItem_of_not (not_isPooled_of_nodup hone item),
      decide_eq_false (not_isPooled_of_nodup hone item)]
  have hordered : orderedIntents intents = σ.map fun item => ⟨item.1, item.2, false⟩ := by
    rw [orderedIntents_eq_map, ← insertionSort_itemLe_perm hσ hkeys, hsorted.insertionSort_eq]
    exact List.map_congr_left fun item _ => hsame item
  have hstart : Unopposed limits.capitalUsdt limits.start (orderedIntents intents) := by
    rw [hordered]
    refine ⟨?_, ?_, fun c _ _ => by rw [start_slot, hopens]; rfl, ?_⟩
    · intro c hc
      obtain ⟨item, hitem, rfl⟩ := List.mem_map.mp hc
      exact hperp item (hmem.mp hitem)
    · intro c hc
      obtain ⟨item, hitem, rfl⟩ := List.mem_map.mp hc
      have halloc := halloc item (hmem.mp hitem)
      have hleverage := hleverage item (hmem.mp hitem)
      change 0 ≤ limits.capitalUsdt * (item.2.allocationPct / 100) * item.2.leverage
      positivity
    · rw [List.filter_map, List.map_map]
      exact ((hσ.filter _).map _).nodup_iff.mpr hone
  obtain ⟨rs, hrs, hall⟩ := foldl_consider_clampEach hcap hstart
  have hresults : reconcileIntents limits intents = rs := hrs
  have hused : limits.start.approvedNotional = 0 := rfl
  rw [hresults, hall, hused, add_zero, hordered, List.map_map, List.map_map]
  rfl

end Agree

/-- A hedge and two positions on one asset each, of which the last one does not fit. -/
def hedgedIntents : List (String × Intent) :=
  [("S-001", ⟨"BTC", .long, 60, 1, 100, 50, none, none⟩),
   ("S-003", ⟨"ETH", .short, 40, 1, 100, 60, none, none⟩),
   ("CARRY", ⟨"BTC", .short, 20, 1, 100, 40, none, none⟩)]

def hedgedLimits : ReconcileLimits := ⟨100, 1000, 1000, 1 / 4, none, none, none⟩

example : clampEach 1000 (1 / 4) 100 [200, 600, 400] = [200, 600, 100] := by decide +kernel

theorem reconcile_eq_clampEach_hedged :
    (reconcileIntents hedgedLimits hedgedIntents).map
        (fun r => (r.sleeveId, r.approvedNotional hedgedLimits.capitalUsdt)) =
      ((hedgedIntents.insertionSort itemLe).map Prod.fst).zip
        (clampEach hedgedLimits.grossCapUsdt hedgedLimits.minReduceFraction
          hedgedLimits.currentGrossUsedUsdt
          ((hedgedIntents.insertionSort itemLe).map fun item =>
            item.2.notional hedgedLimits.capitalUsdt)) :=
  reconcile_eq_clampEach (by decide) (by decide +kernel) (by decide +kernel) (by decide)
    (fun _ => rfl) rfl
    (by decide +kernel) (by decide +kernel) (List.perm_insertionSort itemLe _)
    (List.pairwise_insertionSort itemLe _)

end P300
