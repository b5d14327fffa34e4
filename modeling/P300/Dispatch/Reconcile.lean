import Mathlib.Algebra.BigOperators.Group.List.Defs
import Mathlib.Algebra.Order.Ring.Rat
import Mathlib.Data.List.Sort
import P300.Basic
import P300.Lib.Dict

/-!
# Reconciliation of a tick's intents

`dispatch.reconcile_intents`: concordant intents are pooled, all are sorted by priority and
conviction, and a loop decides on each one in turn: a directional slot for each asset, a cap for
each direction that blocks, and a gross cap that reduces or rejects. An intent is known by its place
in the pooled list, where the source takes the identity of the object.
-/

namespace P300

/-- `dispatch.Intent`; the direction `FLAT` is `.other "FLAT"`. -/
structure Intent where
  asset : String
  direction : Direction
  allocationPct : ℚ
  leverage : ℚ
  conviction : Int
  priority : ℚ
  reason : Option (List (String × String))
  scheduledExitDt : Option Time
  deriving DecidableEq

/-- A copy of an intent with another allocation. -/
def Intent.withAllocation (intent : Intent) (alloc : ℚ) : Intent :=
  { intent with allocationPct := alloc }

/-- A LONG or a SHORT, no `FLAT`. -/
instance (x : Direction) : Decidable x.Perp := inferInstanceAs (Decidable (_ ∨ _))

/-- `_NEUTRAL_STRATEGIES` -/
def neutralStrategies : List String := ["CARRY", "S-078"]

/-! ## Pooling -/

/-- The places of the directional intents, for each asset and direction. -/
def poolBuckets (intents : List (String × Intent)) : Dict (String × Direction) (List ℕ) :=
  intents.zipIdx.foldl (fun buckets item =>
    let ((sid, intent), i) := item
    if ¬ intent.direction.Perp then buckets
    else if sid ∈ neutralStrategies then buckets
    else
      let key := (intent.asset, intent.direction)
      buckets.set key ((buckets.get? key).getD [] ++ [i])) .empty

/-- The average allocation of a bucket's members, and the share of each one in it. -/
def poolShares (members : List Intent) : ℚ × List ℚ :=
  let sumConv : ℚ := (members.map fun m => (m.conviction : ℚ)).sum
  if sumConv ≤ 0 then
    ((members.map (·.allocationPct)).sum / members.length,
      List.replicate members.length (1 / members.length))
  else
    ((members.map fun m => (m.conviction : ℚ) * m.allocationPct).sum / sumConv,
      members.map fun m => (m.conviction : ℚ) / sumConv)

/-- One member of a bucket gets its share, and its place is marked as pooled. -/
def poolMember (intents : List (String × Intent)) (cwAvg : ℚ)
    (s : List (String × Intent) × List ℕ) (member : ℕ × ℚ) : List (String × Intent) × List ℕ :=
  match intents[member.1]? with
  | some (sid, intent) =>
    let newAlloc := member.2 * cwAvg
    (s.1.set member.1 (sid, intent.withAllocation newAlloc), s.2 ++ [member.1])
  -- the places of a bucket are places of the list
  | none => s

/-- The list with the members of one bucket reallocated, and the places that were pooled so far. -/
def poolBucket (intents : List (String × Intent)) (s : List (String × Intent) × List ℕ)
    (idxs : List ℕ) : List (String × Intent) × List ℕ :=
  if idxs.length < 2 then s
  else
    let pooled := poolShares (idxs.filterMap fun i => intents[i]?.map Prod.snd)
    (idxs.zip pooled.2).foldl (poolMember intents pooled.1) s

/-- `dispatch._pool_concordant_allocations` -/
def poolConcordantAllocations (intents : List (String × Intent)) :
    List (String × Intent) × List ℕ :=
  (poolBuckets intents).entries.foldl (fun s bucket => poolBucket intents s bucket.2) (intents, [])

/-! ## Order -/

/-- An intent with its strategy, and whether its allocation was pooled. -/
structure Candidate where
  sleeveId : String
  intent : Intent
  isPooled : Bool
  deriving DecidableEq

/-- `_priority_key(a) <= _priority_key(b)` -/
def priorityLe (a b : Candidate) : Prop :=
  a.intent.priority < b.intent.priority ∨
    (a.intent.priority = b.intent.priority ∧ b.intent.conviction ≤ a.intent.conviction)

instance : DecidableRel priorityLe := fun _ _ => inferInstanceAs (Decidable (_ ∨ _))

/-- `sorted(pooled_intents, key=_priority_key)`, each with its pooled mark. -/
def orderedIntents (intents : List (String × Intent)) : List Candidate :=
  let (pooledIntents, pooledIdxs) := poolConcordantAllocations intents
  (pooledIntents.zipIdx.map fun item => ⟨item.1.1, item.1.2, item.2 ∈ pooledIdxs⟩).insertionSort
    priorityLe

/-! ## Decisions -/

inductive ReconcileStatus
  | approved
  | approvedPooled
  | approvedReduced
  | rejectedDirectionalConflict
  | rejectedMargin
  | rejectedSameDirectionCap
  deriving DecidableEq

/-- The reason of a result, with the values that its text shows. -/
inductive ReconcileReason
  | empty
  | convictionWeightedPooled
  | opposingApproved (priorDir : Direction) (asset : String)
  | directionCap (direction : Direction) (dirUsed candidate cap : ℚ)
  | noHeadroom (used cap : ℚ)
  | tooSmall (headroom minReduceFraction candidate : ℚ)
  | clamped (candidate clamped : ℚ)
  deriving DecidableEq

/-- `dispatch.ReconcileResult` -/
structure ReconcileResult where
  intent : Option Intent
  status : ReconcileStatus
  reason : ReconcileReason
  sleeveId : String
  deriving DecidableEq

/-- The arguments of `reconcile_intents` besides the intents. -/
structure ReconcileLimits where
  currentGrossUsedUsdt : ℚ
  grossCapUsdt : ℚ
  capitalUsdt : ℚ
  minReduceFraction : ℚ
  existingDirectionalOpens : Option (Dict String Direction)
  currentGrossByDirectionUsdt : Option (Dict Direction ℚ)
  sameDirectionCapUsdt : Option ℚ

/-- The tolerance of the two caps. -/
def capTolerance : ℚ := 1 / 1_000_000_000

/-- What the loop carries. -/
structure ReconcileState where
  approvedByAsset : Dict String (Direction × ℚ)
  approvedNotional : ℚ
  approvedByDirection : Dict Direction ℚ
  results : List ReconcileResult

/-- The state before the loop: the slots of the open positions, and the gross of each direction if
the same-direction cap is set. -/
def ReconcileLimits.start (limits : ReconcileLimits) : ReconcileState where
  approvedByAsset := match limits.existingDirectionalOpens with
    | some opens => opens.entries.foldl (fun slots e =>
        if e.2.Perp then slots.set e.1 (e.2, 0) else slots) .empty
    | none => .empty
  approvedNotional := 0
  approvedByDirection :=
    let zero : Dict Direction ℚ := (Dict.empty.set .long 0).set .short 0
    match limits.sameDirectionCapUsdt, limits.currentGrossByDirectionUsdt with
    | some _, some gross => gross.entries.foldl (fun byDirection e =>
        if e.1.Perp then byDirection.set e.1 e.2 else byDirection) zero
    | _, _ => zero
  results := []

/-- `capital_usdt * (allocation_pct / 100) * leverage` -/
def Intent.notional (capital : ℚ) (intent : Intent) : ℚ :=
  capital * (intent.allocationPct / 100) * intent.leverage

/-- `results.append(...)` -/
def ReconcileState.append (s : ReconcileState) (sleeveId : String) (intent : Option Intent)
    (status : ReconcileStatus) (reason : ReconcileReason := .empty) : ReconcileState :=
  { s with results := s.results ++ [⟨intent, status, reason, sleeveId⟩] }

/-- `approved_by_direction[direction]`; both directions are there. -/
def ReconcileState.dirUsed (s : ReconcileState) (direction : Direction) : ℚ :=
  (s.approvedByDirection.get? direction).getD 0

/-- The bookkeeping of an approval: slot and direction unless neutral, and the total. -/
def ReconcileState.book (s : ReconcileState) (c : Candidate) (notional : ℚ) : ReconcileState :=
  let s := if c.sleeveId ∈ neutralStrategies then s else
    { s with
      approvedByAsset := s.approvedByAsset.set c.intent.asset (c.intent.direction, notional)
      approvedByDirection :=
        s.approvedByDirection.set c.intent.direction (s.dirUsed c.intent.direction + notional) }
  { s with approvedNotional := s.approvedNotional + notional }

/-- The prior direction that the intent opposes, if any. -/
def ReconcileState.opposing (s : ReconcileState) (c : Candidate) : Option Direction :=
  if c.sleeveId ∈ neutralStrategies then none
  else ((s.approvedByAsset.get? c.intent.asset).map Prod.fst).filter (· ≠ c.intent.direction)

/-- The same-direction cap, if the candidate goes over it. -/
def ReconcileState.overDirectionCap (s : ReconcileState) (limits : ReconcileLimits) (c : Candidate)
    (candidateNotional : ℚ) : Option ℚ :=
  if c.sleeveId ∈ neutralStrategies then none
  else limits.sameDirectionCapUsdt.filter fun cap =>
    cap + capTolerance < s.dirUsed c.intent.direction + candidateNotional

/-- The body of the loop of `reconcile_intents`. -/
def ReconcileState.consider (limits : ReconcileLimits) (s : ReconcileState) (c : Candidate) :
    ReconcileState :=
  let intent := c.intent
  if ¬ intent.direction.Perp then s.append c.sleeveId intent .approved
  else match s.opposing c with
  | some priorDir =>
    s.append c.sleeveId none .rejectedDirectionalConflict (.opposingApproved priorDir intent.asset)
  | none =>
    let candidateNotional := intent.notional limits.capitalUsdt
    let used := limits.currentGrossUsedUsdt + s.approvedNotional
    let headroom := limits.grossCapUsdt - used
    if candidateNotional ≤ 0 then s.append c.sleeveId intent .approved
    else match s.overDirectionCap limits c candidateNotional with
    | some cap =>
      s.append c.sleeveId none .rejectedSameDirectionCap
        (.directionCap intent.direction (s.dirUsed intent.direction) candidateNotional cap)
    | none =>
      if used + candidateNotional ≤ limits.grossCapUsdt + capTolerance then
        (s.append c.sleeveId intent (if c.isPooled then .approvedPooled else .approved)
          (if c.isPooled then .convictionWeightedPooled else .empty)).book c candidateNotional
      else if headroom ≤ 0 then
        s.append c.sleeveId none .rejectedMargin (.noHeadroom used limits.grossCapUsdt)
      else if headroom < limits.minReduceFraction * candidateNotional then
        s.append c.sleeveId none .rejectedMargin
          (.tooSmall headroom limits.minReduceFraction candidateNotional)
      else
        let clampedNotional := headroom
        let newAlloc := clampedNotional * 100 / (limits.capitalUsdt * intent.leverage)
        let reduced := intent.withAllocation newAlloc
        (s.append c.sleeveId reduced .approvedReduced
          (.clamped candidateNotional clampedNotional)).book c clampedNotional

/-- `dispatch.reconcile_intents` -/
def reconcileIntents (limits : ReconcileLimits) (intents : List (String × Intent)) :
    List ReconcileResult :=
  ((orderedIntents intents).foldl (ReconcileState.consider limits) limits.start).results

end P300
