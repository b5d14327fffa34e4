import P300.Dispatch.Caps

/-!
# Which intents pooling enlarges

The clamp only ever takes less than the candidate. Pooling hands a member its share of the group's
average, which is more than the member asked for when another one asked for much and this one for
little; and when the headroom suffices, the member is approved with that share.
-/

namespace P300

/-- A LONG or SHORT that is approved has at most the allocation that its intent asked for. -/
def ShrinksTo (item : String × Intent) (r : ReconcileResult) : Prop :=
  r.sleeveId = item.1 ∧ (item.2.direction.Perp → r.status.IsApproved → ∃ out, r.intent = some out ∧
    out.allocationPct ≤ item.2.allocationPct ∧ out.leverage = item.2.leverage ∧
    out.asset = item.2.asset ∧ out.direction = item.2.direction)

/-- The results come in the order of `_priority_key`. -/
def OnlyShrinks (limits : ReconcileLimits) (intents : List (String × Intent)) : Prop :=
  List.Forall₂ ShrinksTo (intents.insertionSort itemLe) (reconcileIntents limits intents)

/-- The share of a member in the sum of the convictions, or an equal one if all convictions are
zero. -/
def convictionShare (members : List Intent) (m : Intent) : ℚ :=
  if ∀ m ∈ members, m.conviction = 0 then 1 / members.length
  else m.conviction / (members.map fun m => (m.conviction : ℚ)).sum

/-- No member's share of its group's average is more than the member asks for. -/
def SharesWithin (intents : List (String × Intent)) : Prop :=
  ∀ item ∈ intents, IsPooled intents item →
    convictionShare (poolMembers intents item) item.2 * convictionAverage
      (poolMembers intents item) ≤
      item.2.allocationPct

section Step

variable {limits : ReconcileLimits} {s : ReconcileState} {c : Candidate}

/-- The result of a candidate that is approved has at most its allocation. -/
theorem consider_shrinks (halloc : 0 ≤ c.intent.allocationPct) :
    ∃ r, (s.consider limits c).results = s.results ++ [r] ∧ r.sleeveId = c.sleeveId ∧
      (c.intent.direction.Perp → r.status.IsApproved →
        ∃ alloc ≤ c.intent.allocationPct, r.intent = some (c.intent.withAllocation alloc)) := by
  have houtcome := consider_outcome limits s c
  generalize s.consider limits c = s' at houtcome
  cases houtcome with
  | pass _ => exact ⟨_, rfl, rfl, fun _ _ => ⟨c.intent.allocationPct, le_refl _, rfl⟩⟩
  | reject rejected => exact ⟨_, rfl, rfl, fun _ happroved => absurd happroved rejected⟩
  | @take _ _ alloc notional _ _ _ taken pos le _ _ _ =>
    refine ⟨_, book_results, rfl, fun _ _ => ⟨alloc, ?_, rfl⟩⟩
    subst taken
    have hform : ∀ a, (c.intent.withAllocation a).notional limits.capitalUsdt =
        limits.capitalUsdt * c.intent.leverage / 100 * a := by
      intro a
      rw [Intent.notional, Intent.withAllocation]
      ring
    have hcandidate : c.intent.notional limits.capitalUsdt =
        limits.capitalUsdt * c.intent.leverage / 100 * c.intent.allocationPct := hform _
    rw [hform] at pos le
    rw [hcandidate] at le
    have hsize : 0 < limits.capitalUsdt * c.intent.leverage / 100 := by
      by_contra hneg
      have hnonpos := mul_nonpos_of_nonpos_of_nonneg (not_lt.mp hneg) halloc
      linarith
    exact le_of_mul_le_mul_left le hsize

/-- A candidate that no open position opposes is approved in full where there is room for it. -/
theorem consider_full (hslot : s.opposing c = none) (hcap : limits.sameDirectionCapUsdt = none)
    (hroom : limits.currentGrossUsedUsdt + s.approvedNotional +
      c.intent.notional limits.capitalUsdt ≤
      limits.grossCapUsdt) :
    ∃ status reason, status.IsApproved ∧ (s.consider limits c).results =
      s.results ++ [⟨some c.intent, status, reason, c.sleeveId⟩] := by
  have htol : (0 : ℚ) < capTolerance := by decide +kernel
  have hfits : limits.currentGrossUsedUsdt + s.approvedNotional +
      c.intent.notional limits.capitalUsdt ≤
      limits.grossCapUsdt + capTolerance := by linarith
  rw [ReconcileState.consider]
  split
  · exact ⟨_, _, by decide, rfl⟩
  rw [hslot]
  dsimp only
  split
  · exact ⟨_, _, by decide, rfl⟩
  rw [overDirectionCap_none hcap]
  refine ⟨_, _, ?_, book_results⟩
  split <;> decide

end Step

/-! ## Room for all -/

/-- No cap for a direction, room under the gross cap for all that is asked, and an open position on
one asset. -/
def roomyLimits (capital room : ℚ) (asset : String) (direction : Direction) : ReconcileLimits where
  currentGrossUsedUsdt := 0
  grossCapUsdt := room
  capitalUsdt := capital
  minReduceFraction := 0
  existingDirectionalOpens := some (Dict.empty.set asset direction)
  currentGrossByDirectionUsdt := none
  sameDirectionCapUsdt := none

/-- What the candidates ask for at most. -/
def asked (capital : ℚ) (cs : List Candidate) : ℚ :=
  (cs.map fun c => max 0 (c.intent.notional capital)).sum

/-- The slot of the asset keeps its direction, and there is room for the candidates to come. -/
structure Roomy (capital room : ℚ) (asset : String) (direction : Direction) (s : ReconcileState)
    (cs : List Candidate) : Prop where
  slot : ∃ n, s.approvedByAsset.get? asset = some (direction, n)
  room : s.approvedNotional + asked capital cs ≤ room

section Roomy

variable {capital room : ℚ} {asset : String} {direction : Direction} {s : ReconcileState}
  {c : Candidate} {cs : List Candidate}

theorem Roomy.step (h : Roomy capital room asset direction s (c :: cs)) :
    Roomy capital room asset direction
      (s.consider (roomyLimits capital room asset direction) c) cs := by
  obtain ⟨⟨n, hslot⟩, hroom⟩ := h
  rw [asked, List.map_cons, List.sum_cons, ← asked] at hroom
  have hask := le_max_left 0 (c.intent.notional capital)
  have houtcome := consider_outcome (roomyLimits capital room asset direction) s c
  generalize s.consider (roomyLimits capital room asset direction) c = s' at houtcome
  have hsame : s.approvedNotional + asked capital cs ≤ room := by linarith
  cases houtcome with
  | pass _ => exact ⟨⟨n, hslot⟩, hsame⟩
  | reject _ => exact ⟨⟨n, hslot⟩, hsame⟩
  | @take _ _ _ notional _ _ hopposing _ _ le _ _ _ =>
    constructor
    · rw [book_slot]
      split
      · next hc =>
        rw [← hc.2] at hslot
        exact ⟨notional, by rw [slot_of_not_opposing hopposing hc.1 hslot]⟩
      · exact ⟨n, hslot⟩
    · have hle : notional ≤ max 0 (c.intent.notional capital) := le.trans (le_max_right ..)
      rw [book_approvedNotional]
      change s.approvedNotional + notional + asked capital cs ≤ room
      linarith

theorem Roomy.approves (h : Roomy capital room asset direction s (c :: cs))
    (hasset : c.intent.asset = asset) (hdirection : c.intent.direction = direction) :
    ∃ status reason, status.IsApproved ∧
      (s.consider (roomyLimits capital room asset direction) c).results =
        s.results ++ [⟨some c.intent, status, reason, c.sleeveId⟩] := by
  obtain ⟨⟨n, hslot⟩, hroom⟩ := h
  refine consider_full ?_ rfl ?_
  · rw [ReconcileState.opposing, hasset, hslot, hdirection]
    split
    · rfl
    · simp [Option.filter]
  · have hrest : 0 ≤ asked capital cs := sum_map_nonneg fun _ _ => le_max_left ..
    have hask := le_max_right 0 (c.intent.notional capital)
    rw [asked, List.map_cons, List.sum_cons, ← asked] at hroom
    change 0 + s.approvedNotional + c.intent.notional capital ≤ room
    linarith

/-- The result of a candidate on the asset in the open direction. -/
theorem roomy_result (h : Roomy capital room asset direction s (c :: cs)) :
    ∃ r, (s.consider (roomyLimits capital room asset direction) c).results = s.results ++ [r] ∧
      (c.intent.asset = asset → c.intent.direction = direction →
        r.status.IsApproved ∧ r.intent = some c.intent) := by
  by_cases hc : c.intent.asset = asset ∧ c.intent.direction = direction
  · obtain ⟨_, _, hstatus, hresults⟩ := h.approves hc.1 hc.2
    exact ⟨_, hresults, fun _ _ => ⟨hstatus, rfl⟩⟩
  · obtain ⟨r, hresults, _⟩ := consider_results (roomyLimits capital room asset direction) s c
    exact ⟨r, hresults, fun hasset hdirection => absurd ⟨hasset, hdirection⟩ hc⟩

theorem roomy_start (hdirection : direction.Perp) :
    Roomy capital (asked capital cs) asset direction
      (roomyLimits capital (asked capital cs) asset direction).start cs where
  slot := by
    refine ⟨0, ?_⟩
    rw [start_slot]
    simp [ReconcileLimits.existing, roomyLimits, Dict.get?_set, hdirection, Option.filter]
  room := by
    change 0 + _ ≤ _
    rw [zero_add]

end Roomy

/-! ## The condition -/

section Condition

variable {intents : List (String × Intent)}

theorem pooledItem_share (hconv : ∀ item ∈ intents, 0 ≤ item.2.conviction) {item : String × Intent}
    (hpooled : IsPooled intents item) : (pooledItem intents item).2.allocationPct =
      convictionShare (poolMembers intents item) item.2 * convictionAverage
        (poolMembers intents item) := by
  have hmembers : ∀ m ∈ poolMembers intents item, 0 ≤ m.conviction := fun m hm => by
    obtain ⟨item', hitem', rfl⟩ := mem_poolMembers hm
    exact hconv item' hitem'
  have hshare : poolShare (poolMembers intents item) item.2 =
      convictionShare (poolMembers intents item) item.2 := by
    have hiff := sum_conviction_eq_zero_iff hmembers
    rw [convictionShare]
    unfold poolShare
    dsimp only
    split
    · next hzero => rw [if_pos (hiff.mp hzero)]
    · next hpos => rw [if_neg fun hzero => hpos (hiff.mpr hzero)]
  rw [pooledItem, if_pos hpooled, ← hshare, ← poolShares_fst hmembers]
  rfl

theorem pooledItem_le (hconv : ∀ item ∈ intents, 0 ≤ item.2.conviction)
    (hwithin : SharesWithin intents) {item : String × Intent} (hitem : item ∈ intents) :
    (pooledItem intents item).2.allocationPct ≤ item.2.allocationPct := by
  by_cases hpooled : IsPooled intents item
  · rw [pooledItem_share hconv hpooled]
    exact hwithin item hitem hpooled
  · rw [pooledItem_of_not hpooled]

theorem mem_insertionSort_itemLe {item : String × Intent} :
    item ∈ intents.insertionSort itemLe ↔ item ∈ intents :=
  (List.perm_insertionSort itemLe intents).mem_iff

/-- With room for all that is asked for, a pooled item is approved at its share. -/
theorem share_le_of_onlyShrinks (hconv : ∀ item ∈ intents, 0 ≤ item.2.conviction) {capital : ℚ}
    (h : ∀ limits, limits.capitalUsdt = capital → OnlyShrinks limits intents)
    {item : String × Intent} (hitem : item ∈ intents) (hpooled : IsPooled intents item) :
    convictionShare (poolMembers intents item) item.2 * convictionAverage
      (poolMembers intents item) ≤
      item.2.allocationPct := by
  have hshrunk := h (roomyLimits capital (asked capital (orderedIntents intents)) item.2.asset
    item.2.direction) rfl
  have hfull : List.Forall₂ (fun c r => c.intent.asset = item.2.asset →
      c.intent.direction = item.2.direction → r.status.IsApproved ∧ r.intent = some c.intent)
      (orderedIntents intents) (reconcileIntents (roomyLimits capital
        (asked capital (orderedIntents intents)) item.2.asset item.2.direction) intents) :=
    reconcileIntents_results
      (I := Roomy capital (asked capital (orderedIntents intents)) item.2.asset item.2.direction)
      (fun {s c cs} h => ⟨h.step, roomy_result h⟩) (roomy_start hpooled.perp)
  rw [orderedIntents_eq_map, List.forall₂_map_left_iff] at hfull
  rw [OnlyShrinks, orderedIntents_eq_map] at hshrunk
  obtain ⟨r, _, hone, happroved⟩ :=
    (hshrunk.mp (fun _ _ => And.intro) hfull).mem_left (mem_insertionSort_itemLe.mpr hitem)
  obtain ⟨alloc, hitem'⟩ := pooledItem_eq intents item
  have hcandidate : (candidateOf intents item).intent = item.2.withAllocation alloc :=
    congrArg Prod.snd hitem'
  obtain ⟨hstatus, hintent⟩ := happroved (by rw [hcandidate]; rfl) (by rw [hcandidate]; rfl)
  obtain ⟨out, hout, hle, _⟩ := hone.2 hpooled.perp hstatus
  rw [hintent] at hout
  cases hout
  rw [← pooledItem_share hconv hpooled]
  exact hle

/-- What is decided on a candidate is at most the candidate's, and that is at most what was asked
for. -/
theorem onlyShrinks_of_sharesWithin
    (hintents : ∀ item ∈ intents, 0 ≤ item.2.allocationPct ∧ 0 ≤ item.2.conviction)
    (hwithin : SharesWithin intents) (limits : ReconcileLimits) : OnlyShrinks limits intents := by
  have hnonneg : ∀ c ∈ orderedIntents intents, 0 ≤ c.intent.allocationPct := by
    intro c hc
    rw [orderedIntents_eq_map] at hc
    obtain ⟨item, hitem, rfl⟩ := List.mem_map.mp hc
    exact pooledItem_allocationPct_nonneg hintents (mem_insertionSort_itemLe.mp hitem)
  have hdecided : List.Forall₂ (fun c r => r.sleeveId = c.sleeveId ∧ (c.intent.direction.Perp →
      r.status.IsApproved →
        ∃ alloc ≤ c.intent.allocationPct, r.intent = some (c.intent.withAllocation alloc)))
      (orderedIntents intents) (reconcileIntents limits intents) :=
    reconcileIntents_results (I := fun _ cs => ∀ c ∈ cs, 0 ≤ c.intent.allocationPct)
      (fun {s c cs} h => ⟨fun c' hc' => h c' (List.mem_cons_of_mem c hc'),
        consider_shrinks (h c List.mem_cons_self)⟩) hnonneg
  rw [orderedIntents_eq_map, List.forall₂_map_left_iff] at hdecided
  refine List.forall₂_iff_zip.mpr ⟨hdecided.length_eq, fun {item r} hzip => ?_⟩
  obtain ⟨hid, hone⟩ := (List.forall₂_iff_zip.mp hdecided).2 hzip
  have hitem := mem_insertionSort_itemLe.mp (List.of_mem_zip hzip).1
  have hpooled := pooledItem_le (fun item hitem => (hintents item hitem).2) hwithin hitem
  obtain ⟨alloc', hcandidate⟩ := pooledItem_eq intents item
  rw [candidateOf, hcandidate] at hid hone
  rw [hcandidate] at hpooled
  refine ⟨hid, fun hperp happroved => ?_⟩
  obtain ⟨alloc, hle, hout⟩ := hone hperp happroved
  exact ⟨_, hout, hle.trans hpooled, rfl, rfl, rfl⟩

/-- Reconciliation only shrinks what the sleeves ask for, whatever the caps, if and only if no
member of a pooled group has a larger share in the group's average than it asked for. -/
theorem reconcile_only_shrinks_iff
    (hintents : ∀ item ∈ intents, 0 ≤ item.2.allocationPct ∧ 0 ≤ item.2.conviction) (capital : ℚ) :
    (∀ limits, limits.capitalUsdt = capital → OnlyShrinks limits intents) ↔ SharesWithin intents :=
  ⟨fun h _ hitem hpooled =>
      share_le_of_onlyShrinks (fun item hitem => (hintents item hitem).2) h hitem hpooled,
    fun hwithin limits _ => onlyShrinks_of_sharesWithin hintents hwithin limits⟩

end Condition

theorem reconcile_only_shrinks_agreeingIntents :
    (∀ limits, limits.capitalUsdt = 1000 → OnlyShrinks limits agreeingIntents) ↔
      SharesWithin agreeingIntents :=
  reconcile_only_shrinks_iff (by decide +kernel) 1000

/-- Two strategies of the same conviction on one asset, with 1 and 99 percent of the capital. -/
def unevenIntents : List (String × Intent) :=
  [("S-001", ⟨"BTC", .long, 1, 1, 100, 50, none, none⟩),
   ("S-002", ⟨"BTC", .long, 99, 1, 100, 60, none, none⟩)]

/-- Each one is approved with 25 percent. -/
theorem uneven_share_above_request :
    (∀ item ∈ unevenIntents, 0 ≤ item.2.allocationPct ∧ 0 ≤ item.2.conviction) ∧
      ¬ OnlyShrinks ⟨0, 1000, 1000, 1 / 2, none, none, none⟩ unevenIntents := by
  refine ⟨by decide +kernel, fun hshrinks => ?_⟩
  have horder : unevenIntents.insertionSort itemLe = unevenIntents := by decide +kernel
  have hresults : reconcileIntents ⟨0, 1000, 1000, 1 / 2, none, none, none⟩ unevenIntents =
      [⟨some ⟨"BTC", .long, 25, 1, 100, 50, none, none⟩, .approvedPooled,
        .convictionWeightedPooled, "S-001"⟩,
       ⟨some ⟨"BTC", .long, 25, 1, 100, 60, none, none⟩, .approvedPooled, .convictionWeightedPooled,
        "S-002"⟩] := by decide +kernel
  rw [OnlyShrinks, horder, hresults] at hshrinks
  obtain ⟨hfirst, _⟩ := List.forall₂_cons.mp hshrinks
  obtain ⟨out, hout, hle, _⟩ := hfirst.2 (by decide) (by decide)
  cases hout
  exact absurd hle (by decide +kernel)

end P300
