import Mathlib.Tactic.FieldSimp
import Mathlib.Tactic.Linarith
import Mathlib.Tactic.Ring
import P300.Dispatch.Pooling
import P300.Lib.Related

/-!
# Reconciliation respects every cap

One candidate has three outcomes: it passes without notional, it is rejected, or it takes a notional
that fits under both caps in a slot that no opposing position holds. The sums of what was taken are
what the loop books, so each cap holds after every candidate.
-/

namespace P300

/-! ## What the results approve -/

def ReconcileStatus.IsApproved (status : ReconcileStatus) : Prop :=
  status = .approved ∨ status = .approvedPooled ∨ status = .approvedReduced

instance (status : ReconcileStatus) : Decidable status.IsApproved :=
  inferInstanceAs (Decidable (_ ∨ _))

/-- The LONG or SHORT that a result approves, with its strategy. -/
def ReconcileResult.approvedPosition (r : ReconcileResult) : Option (String × Intent) :=
  if r.status.IsApproved then
    (r.intent.filter fun intent => intent.direction.Perp).map fun intent => (r.sleeveId, intent)
  else none

/-- All approved LONG and SHORT results. -/
def approvedPositions (results : List ReconcileResult) : List (String × Intent) :=
  results.filterMap ReconcileResult.approvedPosition

/-- A position that counts towards a direction. -/
def Directional (position : String × Intent) : Prop := position.1 ∉ neutralStrategies

instance (position : String × Intent) : Decidable (Directional position) :=
  inferInstanceAs (Decidable (¬ _))

def grossOf (capital : ℚ) (positions : List (String × Intent)) : ℚ :=
  (positions.map fun position => position.2.notional capital).sum

/-- The non-neutral positions of one direction. -/
def ofDirection (direction : Direction) (positions : List (String × Intent)) :
    List (String × Intent) :=
  positions.filter fun position => Directional position ∧ position.2.direction = direction

/-- The notional that a direction starts with. -/
def ReconcileLimits.seed (limits : ReconcileLimits) (direction : Direction) : ℚ :=
  match limits.sameDirectionCapUsdt, limits.currentGrossByDirectionUsdt with
  | some _, some gross => (gross.get? direction).getD 0
  | _, _ => 0

/-- The direction of an open position on an asset. -/
def ReconcileLimits.existing (limits : ReconcileLimits) (asset : String) : Option Direction :=
  (limits.existingDirectionalOpens.bind (·.get? asset)).filter fun direction => direction.Perp

/-! ## One candidate -/

/-- What a decision on a candidate makes of the state. -/
inductive Outcome (limits : ReconcileLimits) (s : ReconcileState) (c : Candidate) :
    ReconcileState → Prop
  | pass (slot : c.intent.direction.Perp → c.intent.notional limits.capitalUsdt ≤ 0) :
    Outcome limits s c (s.append c.sleeveId c.intent .approved)
  | reject {status : ReconcileStatus} {reason : ReconcileReason} (rejected : ¬ status.IsApproved) :
    Outcome limits s c (s.append c.sleeveId none status reason)
  | take {status : ReconcileStatus} {reason : ReconcileReason} {alloc notional : ℚ}
    (perp : c.intent.direction.Perp) (approved : status.IsApproved) (slot : s.opposing c = none)
    (taken : (c.intent.withAllocation alloc).notional limits.capitalUsdt = notional)
    (pos : 0 < notional) (le : notional ≤ c.intent.notional limits.capitalUsdt)
    (direction : s.overDirectionCap limits c (c.intent.notional limits.capitalUsdt) = none)
    (gross : limits.currentGrossUsedUsdt + s.approvedNotional + notional ≤
      limits.grossCapUsdt + capTolerance)
    (reduced : status = .approvedReduced →
      limits.minReduceFraction * c.intent.notional limits.capitalUsdt ≤ notional ∧
        notional < c.intent.notional limits.capitalUsdt) :
    Outcome limits s c
      ((s.append c.sleeveId (c.intent.withAllocation alloc) status reason).book c
        notional)

/-- A notional that is not zero has a size to divide by. -/
theorem size_ne_zero {capital : ℚ} {intent : Intent} (h : intent.notional capital ≠ 0) :
    capital * intent.leverage ≠ 0 := by
  intro hsize
  rw [Intent.notional, mul_right_comm, hsize, zero_mul] at h
  exact h rfl

/-- The notional that the new allocation of a reduced intent has. -/
theorem notional_reduced {capital n : ℚ} {intent : Intent} (h : intent.notional capital ≠ 0) :
    (intent.withAllocation (n * 100 / (capital * intent.leverage))).notional capital = n := by
  have hcapital : capital ≠ 0 := left_ne_zero_of_mul (size_ne_zero h)
  have hleverage : intent.leverage ≠ 0 := right_ne_zero_of_mul (size_ne_zero h)
  rw [Intent.notional, Intent.withAllocation]
  field_simp

theorem overDirectionCap_none {limits : ReconcileLimits} (hcap : limits.sameDirectionCapUsdt = none)
    (s : ReconcileState) (c : Candidate) (n : ℚ) : s.overDirectionCap limits c n = none := by
  rw [ReconcileState.overDirectionCap, hcap]
  split <;> rfl

theorem consider_outcome (limits : ReconcileLimits) (s : ReconcileState) (c : Candidate) :
    Outcome limits s c (s.consider limits c) := by
  rw [ReconcileState.consider]
  split
  · next hflat => exact .pass fun hperp => absurd hperp hflat
  next hperp =>
  have hperp : c.intent.direction.Perp := not_not.mp hperp
  split
  · exact .reject (by decide)
  next hslot =>
  dsimp only
  split
  · next hzero => exact .pass fun _ => hzero
  next hpos =>
  have hpos : 0 < c.intent.notional limits.capitalUsdt := not_le.mp hpos
  split
  · exact .reject (by decide)
  next hdirection =>
  split
  · next hfits =>
    refine .take hperp ?_ hslot rfl hpos (le_refl _) hdirection hfits fun hreduced => ?_
    · split <;> decide
    · split at hreduced <;> cases hreduced
  next hover =>
  split
  · exact .reject (by decide)
  next hroom =>
  split
  · exact .reject (by decide)
  next hlarge =>
  have htol : (0 : ℚ) < capTolerance := by decide +kernel
  refine .take hperp (by decide) hslot (notional_reduced hpos.ne')
    (not_le.mp hroom) ?_ hdirection ?_
    fun _ => ⟨not_lt.mp hlarge, ?_⟩
  · linarith
  · linarith
  · linarith

/-! ## Bookkeeping -/

section Book

variable {limits : ReconcileLimits} {s : ReconcileState} {c : Candidate} {notional : ℚ}

theorem approvedPositions_append (results : List ReconcileResult) (r : ReconcileResult) :
    approvedPositions (results ++ [r]) =
      approvedPositions results ++ r.approvedPosition.toList := by
  rw [approvedPositions, List.filterMap_append]
  congr 1

theorem grossOf_append (capital : ℚ) (ps qs : List (String × Intent)) :
    grossOf capital (ps ++ qs) = grossOf capital ps + grossOf capital qs := by
  simp only [grossOf, List.map_append, List.sum_append]

theorem grossOf_singleton (capital : ℚ) (p : String × Intent) :
    grossOf capital [p] = p.2.notional capital := by
  rw [grossOf, List.map_singleton, List.sum_singleton]

theorem ofDirection_append (d : Direction) (ps qs : List (String × Intent)) :
    ofDirection d (ps ++ qs) = ofDirection d ps ++ ofDirection d qs := List.filter_append ..

theorem ofDirection_singleton {d : Direction} {p : String × Intent} :
    ofDirection d [p] = if Directional p ∧ p.2.direction = d then [p] else [] := by
  by_cases h : Directional p ∧ p.2.direction = d <;> simp [ofDirection, h]

@[simp] theorem book_results : (s.book c notional).results = s.results := by
  rw [ReconcileState.book]
  split <;> rfl

@[simp] theorem book_approvedNotional :
    (s.book c notional).approvedNotional = s.approvedNotional + notional := by
  rw [ReconcileState.book]
  split <;> rfl

theorem book_dirUsed (d : Direction) : (s.book c notional).dirUsed d =
    if c.sleeveId ∉ neutralStrategies ∧ c.intent.direction = d then s.dirUsed d + notional
    else s.dirUsed d := by
  rw [ReconcileState.book]
  by_cases hneutral : c.sleeveId ∈ neutralStrategies
  · rw [if_pos hneutral, if_neg fun h => h.1 hneutral]
    rfl
  · rw [if_neg hneutral]
    change ((s.approvedByDirection.set _ _).get? d).getD 0 = _
    rw [Dict.get?_set]
    by_cases hd : d = c.intent.direction
    · rw [if_pos hd, if_pos ⟨hneutral, hd.symm⟩, hd]
      rfl
    · rw [if_neg hd, if_neg fun h => hd h.2.symm]
      rfl

theorem book_slot (asset : String) : (s.book c notional).approvedByAsset.get? asset =
    if c.sleeveId ∉ neutralStrategies ∧ c.intent.asset = asset then
      some (c.intent.direction, notional)
    else s.approvedByAsset.get? asset := by
  rw [ReconcileState.book]
  by_cases hneutral : c.sleeveId ∈ neutralStrategies
  · rw [if_pos hneutral, if_neg fun h => h.1 hneutral]
  · rw [if_neg hneutral]
    change (s.approvedByAsset.set _ _).get? asset = _
    rw [Dict.get?_set]
    by_cases ha : asset = c.intent.asset
    · rw [if_pos ha, if_pos ⟨hneutral, ha.symm⟩]
    · rw [if_neg ha, if_neg fun h => ha h.2.symm]

/-- A slot that does not oppose a directional candidate holds its direction, if any. -/
theorem slot_of_not_opposing (h : s.opposing c = none) (hc : c.sleeveId ∉ neutralStrategies)
    {d : Direction} {n : ℚ} (hslot : s.approvedByAsset.get? c.intent.asset = some (d, n)) :
    d = c.intent.direction := by
  rw [ReconcileState.opposing, if_neg hc, hslot] at h
  by_contra hne
  simp [Option.filter, hne] at h

/-- A booking keeps the direction of a slot that is taken. -/
theorem book_slot_of_some (h : s.opposing c = none) {asset : String} {d : Direction}
    (hslot : ∃ n, s.approvedByAsset.get? asset = some (d, n)) :
    ∃ n, (s.book c notional).approvedByAsset.get? asset = some (d, n) := by
  obtain ⟨n, hslot⟩ := hslot
  rw [book_slot]
  by_cases hc : c.sleeveId ∉ neutralStrategies ∧ c.intent.asset = asset
  · obtain ⟨hneutral, rfl⟩ := hc
    rw [if_pos ⟨hneutral, rfl⟩, slot_of_not_opposing h hneutral hslot]
    exact ⟨notional, rfl⟩
  · rw [if_neg hc]
    exact ⟨n, hslot⟩

end Book

/-! ## The invariant of the loop -/

/-- What the loop has booked is what it has approved, and both caps hold. -/
structure ReconcileState.WithinCaps (limits : ReconcileLimits) (s : ReconcileState) : Prop where
  total : s.approvedNotional = grossOf limits.capitalUsdt (approvedPositions s.results)
  gross : limits.currentGrossUsedUsdt + s.approvedNotional ≤
    max limits.currentGrossUsedUsdt (limits.grossCapUsdt + capTolerance)
  used : ∀ d, d.Perp → s.dirUsed d =
    limits.seed d + grossOf limits.capitalUsdt (ofDirection d (approvedPositions s.results))
  direction : ∀ cap, limits.sameDirectionCapUsdt = some cap → ∀ d, d.Perp →
    s.dirUsed d ≤ max (limits.seed d) (cap + capTolerance)
  slots : ∀ p ∈ approvedPositions s.results, Directional p → 0 < p.2.notional limits.capitalUsdt →
    ∃ n, s.approvedByAsset.get? p.2.asset = some (p.2.direction, n)
  existing : ∀ asset d, limits.existing asset = some d →
    ∃ n, s.approvedByAsset.get? asset = some (d, n)

section Loop

variable {limits : ReconcileLimits} {s s' : ReconcileState} {c : Candidate}

theorem start_slot (asset : String) : limits.start.approvedByAsset.get? asset =
    (limits.existing asset).map fun d => (d, 0) := by
  rw [ReconcileLimits.start, ReconcileLimits.existing]
  cases limits.existingDirectionalOpens with
  | none => rfl
  | some opens =>
    change (Dict.get? (opens.entries.foldl _ _) asset) = _
    rw [Dict.get?_foldl_set (p := fun e : String × Direction => e.2.Perp)]
    cases h : opens.get? asset with
    | none => simp [h]
    | some d => by_cases hd : d.Perp <;> simp [h, hd, Option.filter]

theorem start_dirUsed {d : Direction} (hd : d.Perp) : limits.start.dirUsed d = limits.seed d := by
  have hzero : (((Dict.empty.set Direction.long (0 : ℚ)).set .short 0).get? d).getD 0 = 0 := by
    rcases hd with rfl | rfl <;> rfl
  rw [ReconcileState.dirUsed, ReconcileLimits.start, ReconcileLimits.seed]
  cases limits.sameDirectionCapUsdt with
  | none => exact hzero
  | some cap =>
    cases limits.currentGrossByDirectionUsdt with
    | none => exact hzero
    | some gross =>
      change (Dict.get? (gross.entries.foldl _ _) d).getD 0 = _
      rw [Dict.get?_foldl_set (p := fun e : Direction × ℚ => e.1.Perp)]
      cases h : gross.get? d with
      | none => simpa [h] using hzero
      | some n => simp [h, hd, Option.filter]

theorem start_withinCaps : limits.start.WithinCaps limits where
  total := rfl
  gross := by
    change _ + (0 : ℚ) ≤ _
    rw [add_zero]
    exact le_max_left ..
  used d hd := by
    rw [start_dirUsed hd]
    change _ = _ + (0 : ℚ)
    rw [add_zero]
  direction cap _ d hd := by
    rw [start_dirUsed hd]
    exact le_max_left ..
  slots p hp := by cases hp
  existing asset d h := ⟨0, by rw [start_slot, h]; rfl⟩

/-- A result without a position books nothing. -/
theorem ReconcileState.WithinCaps.append_nothing (h : s.WithinCaps limits) {sleeveId : String}
    {intent : Option Intent} {status : ReconcileStatus} {reason : ReconcileReason}
    (hnone : (⟨intent, status, reason, sleeveId⟩ : ReconcileResult).approvedPosition = none) :
    (s.append sleeveId intent status reason).WithinCaps limits := by
  have hsame : approvedPositions (s.append sleeveId intent status reason).results =
      approvedPositions s.results := by
    rw [ReconcileState.append, approvedPositions_append, hnone]
    exact List.append_nil _
  constructor
  · rw [hsame]; exact h.total
  · exact h.gross
  · rw [hsame]; exact h.used
  · exact h.direction
  · rw [hsame]; exact h.slots
  · exact h.existing

/-- A position without notional changes no sum and needs no slot. -/
theorem ReconcileState.WithinCaps.append_zero (h : s.WithinCaps limits) {sleeveId : String}
    {intent : Intent} {status : ReconcileStatus} {reason : ReconcileReason}
    (hzero : intent.notional limits.capitalUsdt = 0) :
    (s.append sleeveId intent status reason).WithinCaps limits := by
  have hpos : approvedPositions (s.append sleeveId intent status reason).results =
      approvedPositions s.results ++
        (⟨intent, status, reason, sleeveId⟩ : ReconcileResult).approvedPosition.toList :=
    approvedPositions_append ..
  cases hr : (⟨intent, status, reason, sleeveId⟩ : ReconcileResult).approvedPosition with
  | none => exact h.append_nothing hr
  | some p =>
    have hp : p.2 = intent := by
      rw [ReconcileResult.approvedPosition] at hr
      split at hr
      · obtain ⟨intent', hintent', rfl⟩ := Option.map_eq_some_iff.mp hr
        exact (Option.some.inj (Option.filter_eq_some_iff.mp hintent').1).symm
      · cases hr
    rw [hr] at hpos
    have hgross : grossOf limits.capitalUsdt [p] = 0 := by rw [grossOf_singleton, hp, hzero]
    constructor
    · rw [hpos, grossOf_append, Option.toList_some, hgross, add_zero]
      exact h.total
    · exact h.gross
    · intro d hd
      have hdir : grossOf limits.capitalUsdt (ofDirection d [p]) = 0 := by
        rw [ofDirection_singleton]
        split
        · exact hgross
        · rfl
      rw [hpos, ofDirection_append, grossOf_append, Option.toList_some, hdir, add_zero]
      exact h.used d hd
    · exact h.direction
    · intro q hq hdirectional hnotional
      rw [hpos, Option.toList_some] at hq
      rcases List.mem_append.mp hq with hq | hq
      · exact h.slots q hq hdirectional hnotional
      · rw [List.mem_singleton.mp hq, hp, hzero] at hnotional
        exact absurd hnotional (lt_irrefl 0)
    · exact h.existing

theorem ReconcileState.WithinCaps.take (h : s.WithinCaps limits) {status : ReconcileStatus}
    {reason : ReconcileReason} {out : Intent} {notional : ℚ} (hasset : out.asset = c.intent.asset)
    (hdir : out.direction = c.intent.direction) (hperp : c.intent.direction.Perp)
    (happroved : status.IsApproved) (hslot : s.opposing c = none)
    (htaken : out.notional limits.capitalUsdt = notional)
    (hle : notional ≤ c.intent.notional limits.capitalUsdt)
    (hdirection : s.overDirectionCap limits c (c.intent.notional limits.capitalUsdt) = none)
    (hgross : limits.currentGrossUsedUsdt + s.approvedNotional + notional ≤
      limits.grossCapUsdt + capTolerance) :
    ((s.append c.sleeveId out status reason).book c notional).WithinCaps limits := by
  have hresults : approvedPositions ((s.append c.sleeveId (some out) status reason).book c
      notional).results = approvedPositions s.results ++ [(c.sleeveId, out)] := by
    rw [book_results, ReconcileState.append, approvedPositions_append,
      ReconcileResult.approvedPosition, if_pos happroved]
    simp [hperp, hdir, Option.filter]
  have hused : ∀ d, (s.append c.sleeveId (some out) status reason).dirUsed d = s.dirUsed d :=
    fun _ => rfl
  have hfree : (s.append c.sleeveId (some out) status reason).opposing c = none := hslot
  constructor
  · rw [hresults, grossOf_append, grossOf_singleton, book_approvedNotional, htaken, ← h.total]
    rfl
  · rw [book_approvedNotional]
    change _ + (s.approvedNotional + notional) ≤ _
    rw [← add_assoc]
    exact hgross.trans (le_max_right ..)
  · intro d hd
    rw [hresults, ofDirection_append, grossOf_append, ofDirection_singleton, book_dirUsed, hused,
      h.used d hd]
    by_cases hc : c.sleeveId ∉ neutralStrategies ∧ c.intent.direction = d
    · have hout : Directional (c.sleeveId, out) ∧ out.direction = d := by rwa [hdir]
      rw [if_pos hc, if_pos hout, grossOf_singleton, htaken, add_assoc]
    · have hout : ¬ (Directional (c.sleeveId, out) ∧ out.direction = d) := by rwa [hdir]
      rw [if_neg hc, if_neg hout]
      change _ = _ + (_ + (0 : ℚ))
      rw [add_zero]
  · intro cap hcap d hd
    rw [book_dirUsed, hused]
    by_cases hc : c.sleeveId ∉ neutralStrategies ∧ c.intent.direction = d
    · rw [if_pos hc]
      obtain ⟨hneutral, rfl⟩ := hc
      rw [ReconcileState.overDirectionCap, if_neg hneutral, hcap] at hdirection
      have hroom := Option.filter_eq_none_iff.mp hdirection cap rfl
      rw [decide_eq_true_eq, not_lt] at hroom
      exact le_trans (by linarith) (le_max_right ..)
    · rw [if_neg hc]
      exact h.direction cap hcap d hd
  · intro p hp hdirectional hnotional
    rw [hresults] at hp
    rcases List.mem_append.mp hp with hp | hp
    · exact book_slot_of_some hfree (h.slots p hp hdirectional hnotional)
    · obtain rfl := List.mem_singleton.mp hp
      rw [book_slot, if_pos ⟨hdirectional, hasset.symm⟩, hdir]
      exact ⟨notional, rfl⟩
  · exact fun asset d hd => book_slot_of_some hfree (h.existing asset d hd)

/-- One candidate of non-negative notional. -/
theorem ReconcileState.WithinCaps.consider (h : s.WithinCaps limits)
    (hc : 0 ≤ c.intent.notional limits.capitalUsdt) : (s.consider limits c).WithinCaps limits := by
  have houtcome := consider_outcome limits s c
  generalize s.consider limits c = s' at houtcome
  cases houtcome with
  | pass slot =>
    by_cases hperp : c.intent.direction.Perp
    · exact h.append_zero (le_antisymm (slot hperp) hc)
    · refine h.append_nothing ?_
      have happroved : ReconcileStatus.approved.IsApproved := Or.inl rfl
      rw [ReconcileResult.approvedPosition, if_pos happroved]
      simp [hperp, Option.filter]
  | reject rejected =>
    refine h.append_nothing ?_
    rw [ReconcileResult.approvedPosition, if_neg rejected]
  | take perp approved slot taken _ le direction gross _ =>
    exact h.take rfl rfl perp approved slot taken le direction gross

end Loop

/-! ## The whole pass -/

/-- A result of a candidate: its own intent at some allocation, or none, and if it was reduced, a
part of the candidate's notional that is large enough. -/
structure DecisionOn (limits : ReconcileLimits) (c : Candidate) (r : ReconcileResult) : Prop where
  sleeveId : r.sleeveId = c.sleeveId
  intent : ∀ out ∈ r.intent, ∃ alloc, out = c.intent.withAllocation alloc
  reduced : r.status = .approvedReduced → ∃ out, r.intent = some out ∧
    limits.minReduceFraction * c.intent.notional limits.capitalUsdt ≤
      out.notional limits.capitalUsdt ∧
    out.notional limits.capitalUsdt < c.intent.notional limits.capitalUsdt

/-- What the caps promise of the results. -/
structure RespectsCaps (limits : ReconcileLimits) (intents : List (String × Intent))
    (results : List ReconcileResult) : Prop where
  /-- One result for each intent, which executes this intent at some allocation or rejects it. -/
  onePerIntent : ∃ σ, σ.Perm intents ∧ List.Forall₂ (fun item r => r.sleeveId = item.1 ∧
    ∀ out ∈ r.intent, ∃ alloc, out = item.2.withAllocation alloc) σ results
  gross : limits.currentGrossUsedUsdt + grossOf limits.capitalUsdt (approvedPositions results) ≤
    max limits.currentGrossUsedUsdt (limits.grossCapUsdt + capTolerance)
  direction : ∀ cap, limits.sameDirectionCapUsdt = some cap → ∀ d, d.Perp →
    limits.seed d + grossOf limits.capitalUsdt (ofDirection d (approvedPositions results)) ≤
      max (limits.seed d) (cap + capTolerance)
  opposing : ∀ p ∈ approvedPositions results, ∀ q ∈ approvedPositions results,
    Directional p → 0 < p.2.notional limits.capitalUsdt →
    Directional q → 0 < q.2.notional limits.capitalUsdt →
    p.2.asset = q.2.asset → p.2.direction = q.2.direction
  existing : ∀ p ∈ approvedPositions results, Directional p → 0 < p.2.notional limits.capitalUsdt →
    ∀ d, limits.existing p.2.asset = some d → p.2.direction = d
  /-- The candidate's notional is that of the intent after pooling. -/
  reduced : List.Forall₂ (DecisionOn limits) (orderedIntents intents) results

theorem consider_results (limits : ReconcileLimits) (s : ReconcileState) (c : Candidate) :
    ∃ r, (s.consider limits c).results = s.results ++ [r] ∧ DecisionOn limits c r := by
  have houtcome := consider_outcome limits s c
  generalize s.consider limits c = s' at houtcome
  cases houtcome with
  | pass _ =>
    refine ⟨_, rfl, rfl, fun out hout => ?_, fun hreduced => by cases hreduced⟩
    cases hout
    exact ⟨c.intent.allocationPct, rfl⟩
  | reject rejected =>
    refine ⟨_, rfl, rfl, fun out hout => (by cases hout), fun hreduced => ?_⟩
    exact absurd (Or.inr (Or.inr hreduced)) rejected
  | take _ _ _ taken _ _ _ _ reduced =>
    refine ⟨_, book_results, rfl, fun out hout => ?_, fun hreduced => ?_⟩
    · cases hout
      exact ⟨_, rfl⟩
    · obtain ⟨hlarge, hless⟩ := reduced hreduced
      exact ⟨_, rfl, taken ▸ hlarge, taken ▸ hless⟩

/-- What holds of the result of every candidate, while the invariant `I` holds of the state and the
candidates to come, holds of all results. -/
theorem foldl_consider_results {limits : ReconcileLimits} {R : Candidate → ReconcileResult → Prop}
    {I : ReconcileState → List Candidate → Prop}
    (hstep : ∀ {s c cs}, I s (c :: cs) → I (s.consider limits c) cs ∧
      ∃ r, (s.consider limits c).results = s.results ++ [r] ∧ R c r)
    {cs : List Candidate} {s : ReconcileState} (h : I s cs) :
    ∃ rs, (cs.foldl (ReconcileState.consider limits) s).results = s.results ++ rs ∧
      List.Forall₂ R cs rs := by
  induction cs generalizing s with
  | nil => exact ⟨[], (List.append_nil _).symm, .nil⟩
  | cons c cs ih =>
    obtain ⟨hnext, r, hr, hdecision⟩ := hstep h
    obtain ⟨rs, hrs, hdecisions⟩ := ih hnext
    refine ⟨r :: rs, ?_, .cons hdecision hdecisions⟩
    rw [List.foldl_cons, hrs, hr, List.append_assoc]
    rfl

/-- The results of a run from the start. -/
theorem reconcileIntents_results {limits : ReconcileLimits} {intents : List (String × Intent)}
    {R : Candidate → ReconcileResult → Prop} {I : ReconcileState → List Candidate → Prop}
    (hstep : ∀ {s c cs}, I s (c :: cs) → I (s.consider limits c) cs ∧
      ∃ r, (s.consider limits c).results = s.results ++ [r] ∧ R c r)
    (h : I limits.start (orderedIntents intents)) :
    List.Forall₂ R (orderedIntents intents) (reconcileIntents limits intents) := by
  obtain ⟨rs, hrs, hresults⟩ := foldl_consider_results hstep h
  have heq : reconcileIntents limits intents = rs := hrs
  rwa [heq]

theorem foldl_consider_withinCaps {limits : ReconcileLimits} {cs : List Candidate}
    (hcs : ∀ c ∈ cs, 0 ≤ c.intent.notional limits.capitalUsdt) {s : ReconcileState}
    (hs : s.WithinCaps limits) :
    (cs.foldl (ReconcileState.consider limits) s).WithinCaps limits := by
  induction cs generalizing s with
  | nil => exact hs
  | cons c cs ih =>
    exact ih (fun c' hc' => hcs c' (List.mem_cons_of_mem c hc'))
      (hs.consider (hcs c List.mem_cons_self))

/-- The numbers are exact; in floating-point arithmetic the bounds hold up to rounding. -/
theorem reconcileIntents_respectsCaps {limits : ReconcileLimits} {intents : List (String × Intent)}
    (hcapital : 0 < limits.capitalUsdt) (hintents : ∀ item ∈ intents, item.2.NonNeg) :
    RespectsCaps limits intents (reconcileIntents limits intents) := by
  obtain ⟨σ, hσ, hcandidates⟩ := orderedIntents_reallocated hintents
  have hdecisions : List.Forall₂ (DecisionOn limits) (orderedIntents intents)
      (reconcileIntents limits intents) :=
    reconcileIntents_results (I := fun _ _ => True)
      (fun {s c _} _ => ⟨trivial, consider_results limits s c⟩) trivial
  have hnonneg : ∀ c ∈ orderedIntents intents, 0 ≤ c.intent.notional limits.capitalUsdt := by
    intro c hc
    obtain ⟨item, hitem, _, alloc, halloc, hreallocated⟩ := hcandidates.mem_right hc
    have hleverage := (hintents item (hσ.mem_iff.mp hitem)).leverage
    rw [show c.intent = item.2.withAllocation alloc from hreallocated, Intent.notional,
      Intent.withAllocation]
    exact mul_nonneg (mul_nonneg hcapital.le (div_nonneg halloc (by norm_num))) hleverage
  have hcaps := foldl_consider_withinCaps hnonneg start_withinCaps
  refine ⟨⟨σ, hσ, ?_⟩, ?_, ?_, ?_, ?_, ?_⟩
  · refine hcandidates.comp hdecisions fun item c r hitem hr => ?_
    obtain ⟨hid, alloc, _, hreallocated⟩ := hitem
    refine ⟨hr.sleeveId.trans hid, fun out hout => ?_⟩
    obtain ⟨alloc', hout⟩ := hr.intent out hout
    rw [show c.intent = item.2.withAllocation alloc from hreallocated] at hout
    exact ⟨alloc', hout⟩
  · have hgross := hcaps.gross
    rwa [hcaps.total] at hgross
  · intro cap hcap d hd
    have hdirection := hcaps.direction cap hcap d hd
    rwa [hcaps.used d hd] at hdirection
  · intro p hp q hq hdp hnp hdq hnq hasset
    obtain ⟨n, hn⟩ := hcaps.slots p hp hdp hnp
    obtain ⟨m, hm⟩ := hcaps.slots q hq hdq hnq
    rw [hasset, hm] at hn
    exact (congrArg Prod.fst (Option.some.inj hn)).symm
  · intro p hp hdp hnp d hd
    obtain ⟨n, hn⟩ := hcaps.slots p hp hdp hnp
    obtain ⟨m, hm⟩ := hcaps.existing _ d hd
    rw [hm] at hn
    exact (congrArg Prod.fst (Option.some.inj hn)).symm
  · exact hdecisions

/-- An open SHORT on ETH and caps of 1000 and 900. -/
def tickLimits : ReconcileLimits :=
  ⟨100, 1000, 1000, 1 / 2, some (Dict.empty.set "ETH" .short),
    some (Dict.empty.set .short 100), some 900⟩

/-- Two LONGs that pool, a LONG against the open position, and a hedge that is reduced. -/
def tickIntents : List (String × Intent) :=
  [("CARRY", ⟨"BTC", .short, 60, 1, 100, 100, none, none⟩),
   ("S-001", ⟨"BTC", .long, 60, 1, 100, 50, none, none⟩),
   ("S-002", ⟨"BTC", .long, 40, 1, 50, 50, none, none⟩),
   ("S-003", ⟨"ETH", .long, 10, 1, 100, 60, none, none⟩)]

example : (reconcileIntents tickLimits tickIntents).map (·.status) =
    [.approvedPooled, .approvedPooled, .rejectedDirectionalConflict, .approvedReduced] := by
  decide +kernel

theorem reconcileIntents_respectsCaps_tick :
    RespectsCaps tickLimits tickIntents (reconcileIntents tickLimits tickIntents) :=
  reconcileIntents_respectsCaps (by decide +kernel) (by decide +kernel)

end P300
