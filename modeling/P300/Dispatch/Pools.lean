import Mathlib.Algebra.BigOperators.Ring.List
import Mathlib.Algebra.Order.BigOperators.Group.List
import Mathlib.Algebra.Order.Field.Basic
import Mathlib.Data.List.Perm.Basic
import Mathlib.Tactic.Linarith
import P300.Dispatch.Reconcile

/-!
# What pooling computes

The buckets of `_pool_concordant_allocations` are the groups of the intents with one asset and
direction, so pooling maps every intent to itself or to its share of the group's average. The share
depends on the group as a multiset: the order of the intents decides nothing but the order of the
list.
-/

namespace P300

/-! ## Groups -/

/-- The group of an intent that can be pooled: a LONG or a SHORT of a strategy that is not
neutral. -/
def poolKey (item : String × Intent) : Option (String × Direction) :=
  if item.2.direction.Perp ∧ item.1 ∉ neutralStrategies then some (item.2.asset, item.2.direction)
  else none

def poolGroup (intents : List (String × Intent)) (key : String × Direction) : List Intent :=
  (intents.filter fun item => poolKey item = some key).map Prod.snd

/-- The group that an intent is in. -/
def poolMembers (intents : List (String × Intent)) (item : String × Intent) : List Intent :=
  (poolKey item).elim [] (poolGroup intents)

/-- The intent is in a group of two or more. -/
def IsPooled (intents : List (String × Intent)) (item : String × Intent) : Prop :=
  2 ≤ (poolMembers intents item).length

instance (intents : List (String × Intent)) (item : String × Intent) :
    Decidable (IsPooled intents item) := inferInstanceAs (Decidable (_ ≤ _))

/-- The share of one member. -/
def poolShare (members : List Intent) (m : Intent) : ℚ :=
  let sumConv : ℚ := (members.map fun m => (m.conviction : ℚ)).sum
  if sumConv ≤ 0 then 1 / members.length else m.conviction / sumConv

/-- An intent after pooling. -/
def pooledItem (intents : List (String × Intent)) (item : String × Intent) : String × Intent :=
  if IsPooled intents item then
    let members := poolMembers intents item
    (item.1, item.2.withAllocation (poolShare members item.2 * (poolShares members).1))
  else item

/-- The intent as the loop of `reconcile_intents` sees it. -/
def candidateOf (intents : List (String × Intent)) (item : String × Intent) : Candidate :=
  ⟨(pooledItem intents item).1, (pooledItem intents item).2, IsPooled intents item⟩

theorem poolKey_eq {item : String × Intent} {key : String × Direction}
    (h : poolKey item = some key) :
    key = (item.2.asset, item.2.direction) := by
  rw [poolKey] at h
  split at h
  · exact (Option.some.inj h).symm
  · cases h

theorem mem_poolMembers {intents : List (String × Intent)} {item : String × Intent} {m : Intent}
    (hm : m ∈ poolMembers intents item) : ∃ item' ∈ intents, item'.2 = m := by
  rw [poolMembers] at hm
  cases hkey : poolKey item with
  | none =>
    rw [hkey] at hm
    cases hm
  | some key =>
    rw [hkey] at hm
    obtain ⟨item', hitem', rfl⟩ := List.mem_map.mp hm
    exact ⟨item', List.mem_of_mem_filter hitem', rfl⟩

/-- A pooled intent is in its own group. -/
theorem IsPooled.self_mem {intents : List (String × Intent)} {item : String × Intent}
    (h : IsPooled intents item) (hitem : item ∈ intents) : item.2 ∈ poolMembers intents item := by
  rw [IsPooled, poolMembers] at h
  rw [poolMembers]
  cases hkey : poolKey item with
  | none =>
    rw [hkey] at h
    cases h
  | some key => exact List.mem_map_of_mem (List.mem_filter.mpr ⟨hitem, decide_eq_true hkey⟩)

theorem IsPooled.perp {intents : List (String × Intent)} {item : String × Intent}
    (h : IsPooled intents item) : item.2.direction.Perp := by
  by_contra hflat
  have hkey : poolKey item = none := if_neg fun hkey => hflat hkey.1
  rw [IsPooled, poolMembers, hkey] at h
  cases h

theorem poolShares_snd (members : List Intent) :
    (poolShares members).2 = members.map (poolShare members) := by
  rw [poolShares]
  unfold poolShare
  split
  · next h => simp only [if_pos h, List.map_const']
  · next h => simp only [if_neg h]

theorem pooledItem_of_not {intents : List (String × Intent)} {item : String × Intent}
    (h : ¬ IsPooled intents item) : pooledItem intents item = item := if_neg h

theorem pooledItem_eq (intents : List (String × Intent)) (item : String × Intent) :
    ∃ alloc, pooledItem intents item = (item.1, item.2.withAllocation alloc) := by
  rw [pooledItem]
  split
  · exact ⟨_, rfl⟩
  · exact ⟨item.2.allocationPct, rfl⟩

/-- An allocation does not move an intent to another group. -/
theorem poolKey_pooledItem (intents : List (String × Intent)) (item : String × Intent) :
    poolKey (pooledItem intents item) = poolKey item := by
  obtain ⟨alloc, h⟩ := pooledItem_eq intents item
  rw [h]
  rfl

section Buckets

variable {intents : List (String × Intent)}

/-- The intents of a group with their places. -/
def poolPlaces (intents : List (String × Intent)) (key : String × Direction) :
    List ((String × Intent) × ℕ) :=
  intents.zipIdx.filter fun p => poolKey p.1 = some key

theorem mem_poolPlaces {key : String × Direction} {p : (String × Intent) × ℕ} :
    p ∈ poolPlaces intents key ↔ intents[p.2]? = some p.1 ∧ poolKey p.1 = some key := by
  rw [poolPlaces, List.mem_filter, List.mem_zipIdx_iff_getElem?, decide_eq_true_eq]

theorem poolPlaces_map_fst (intents : List (String × Intent)) (key : String × Direction) :
    (poolPlaces intents key).map (fun p => p.1.2) = poolGroup intents key := by
  have hfst := List.zipIdx_map_fst 0 intents
  rw [poolGroup]
  nth_rw 2 [← hfst]
  rw [List.filter_map, List.map_map]
  rfl

/-- The members that `_pool_concordant_allocations` reads back at the places of a bucket. -/
theorem members_poolPlaces (key : String × Direction) :
    ((poolPlaces intents key).map Prod.snd).filterMap (fun i => intents[i]?.map Prod.snd) =
      poolGroup intents key := by
  rw [← poolPlaces_map_fst, List.filterMap_map, ← List.filterMap_eq_map]
  refine List.filterMap_congr fun p hp => ?_
  rw [Function.comp_apply, (mem_poolPlaces.mp hp).1]
  rfl

theorem length_poolPlaces (key : String × Direction) :
    (poolPlaces intents key).length = (poolGroup intents key).length := by
  rw [← poolPlaces_map_fst, List.length_map]

/-- A bucket holds the places of its group. -/
theorem getD_poolBuckets (key : String × Direction) :
    ((poolBuckets intents).get? key).getD [] = (poolPlaces intents key).map Prod.snd := by
  rw [poolBuckets, poolPlaces]
  generalize intents.zipIdx = items
  suffices h : ∀ d : Dict (String × Direction) (List ℕ), ((items.foldl _ d).get? key).getD [] =
      (d.get? key).getD [] ++ (items.filter fun p => poolKey p.1 = some key).map Prod.snd by
    exact h .empty
  induction items with
  | nil => exact fun d => (List.append_nil _).symm
  | cons item items ih =>
    obtain ⟨⟨sid, intent⟩, i⟩ := item
    intro d
    rw [List.foldl_cons, ih]
    by_cases hperp : intent.direction.Perp
    · by_cases hneutral : sid ∈ neutralStrategies
      · have hkey : poolKey (sid, intent) = none := if_neg fun h => h.2 hneutral
        simp [hperp, hneutral, hkey]
      · have hkey : poolKey (sid, intent) = some (intent.asset, intent.direction) :=
          if_pos ⟨hperp, hneutral⟩
        by_cases hsame : key = (intent.asset, intent.direction)
        · simp [hperp, hneutral, hkey, hsame, Dict.get?_set]
        · simp [hperp, hneutral, hkey, hsame, Ne.symm hsame, Dict.get?_set]
    · have hkey : poolKey (sid, intent) = none := if_neg fun h => hperp h.1
      simp [hperp, hkey]

theorem mem_entries_poolBuckets {e : (String × Direction) × List ℕ}
    (he : e ∈ (poolBuckets intents).entries) : e.2 = (poolPlaces intents e.1).map Prod.snd := by
  rw [← getD_poolBuckets, (Dict.mem_entries_iff _).mp he]
  rfl

/-- Every group has its bucket. -/
theorem exists_bucket {i : ℕ} {item : String × Intent} {key : String × Direction}
    (hi : intents[i]? = some item) (hkey : poolKey item = some key) :
    (key, (poolPlaces intents key).map Prod.snd) ∈ (poolBuckets intents).entries := by
  have hmem : i ∈ (poolPlaces intents key).map Prod.snd :=
    List.mem_map.mpr ⟨(item, i), mem_poolPlaces.mpr ⟨hi, hkey⟩, rfl⟩
  rw [← getD_poolBuckets] at hmem ⊢
  rw [Dict.mem_entries_iff]
  cases h : (poolBuckets intents).get? key with
  | none =>
    rw [h] at hmem
    cases hmem
  | some idxs => rfl

/-! ## Pooling maps -/

/-- The marked places hold the pooled intents, the others the intents as they came. -/
def PooledAt (intents : List (String × Intent)) (s : List (String × Intent) × List ℕ) : Prop :=
  ∀ i, s.1[i]? = intents[i]?.map fun item => if i ∈ s.2 then pooledItem intents item else item

theorem PooledAt.poolMember {s : List (String × Intent) × List ℕ} (h : PooledAt intents s)
    {cwAvg : ℚ} (member : ℕ × ℚ) {item : String × Intent} (hi : intents[member.1]? = some item)
    (hitem : pooledItem intents item = (item.1, item.2.withAllocation (member.2 * cwAvg))) :
    PooledAt intents (poolMember intents cwAvg s member) ∧
      (poolMember intents cwAvg s member).2 = s.2 ++ [member.1] := by
  rw [P300.poolMember, hi]
  refine ⟨fun j => ?_, rfl⟩
  change (s.1.set member.1 _)[j]? = intents[j]?.map fun item =>
    if j ∈ s.2 ++ [member.1] then pooledItem intents item else item
  rw [List.getElem?_set]
  by_cases hj : member.1 = j
  · subst hj
    have hlt : member.1 < s.1.length := by
      have hsome := h member.1
      rw [hi] at hsome
      exact (List.getElem?_eq_some_iff.mp hsome).1
    rw [if_pos rfl, if_pos hlt, hi]
    simp [hitem]
  · rw [if_neg hj, h]
    simp [Ne.symm hj]

/-- Members of one group, each with its share. -/
theorem PooledAt.foldl_poolMember {key : String × Direction}
    (hkey : 2 ≤ (poolGroup intents key).length) {items : List ((String × Intent) × ℕ)}
    (hitems : ∀ p ∈ items, p ∈ poolPlaces intents key) {s : List (String × Intent) × List ℕ}
    (h : PooledAt intents s) :
    let s' := (items.map fun p => (p.2, poolShare (poolGroup intents key) p.1.2)).foldl
      (P300.poolMember intents (poolShares (poolGroup intents key)).1) s
    PooledAt intents s' ∧ s'.2 = s.2 ++ items.map Prod.snd := by
  induction items generalizing s with
  | nil => exact ⟨h, (List.append_nil _).symm⟩
  | cons p items ih =>
    obtain ⟨hp, hpkey⟩ := mem_poolPlaces.mp (hitems p List.mem_cons_self)
    have hmembers : poolMembers intents p.1 = poolGroup intents key :=
      by rw [poolMembers, hpkey]; rfl
    have hitem : pooledItem intents p.1 = (p.1.1, p.1.2.withAllocation
        (poolShare (poolGroup intents key) p.1.2 * (poolShares (poolGroup intents key)).1)) := by
      have hpooled : IsPooled intents p.1 := by
        change 2 ≤ (poolMembers intents p.1).length
        rwa [hmembers]
      rw [pooledItem, if_pos hpooled, hmembers]
    obtain ⟨hone, hmarked⟩ := h.poolMember (p.2, _) hp hitem
    obtain ⟨hrest, hmarks⟩ := ih (fun q hq => hitems q (List.mem_cons_of_mem p hq)) hone
    refine ⟨hrest, hmarks.trans ?_⟩
    rw [hmarked, List.append_assoc]
    rfl

theorem PooledAt.poolBucket {s : List (String × Intent) × List ℕ} (h : PooledAt intents s)
    (key : String × Direction) :
    let s' := poolBucket intents s ((poolPlaces intents key).map Prod.snd)
    PooledAt intents s' ∧ s'.2 = s.2 ++
      if 2 ≤ (poolGroup intents key).length then (poolPlaces intents key).map Prod.snd else [] := by
  dsimp only
  rw [P300.poolBucket, List.length_map, length_poolPlaces]
  by_cases hkey : 2 ≤ (poolGroup intents key).length
  · have hzip : ((poolPlaces intents key).map Prod.snd).zip (poolShares (poolGroup intents key)).2 =
        (poolPlaces intents key).map fun p => (p.2, poolShare (poolGroup intents key) p.1.2) := by
      rw [poolShares_snd]
      nth_rw 2 [← poolPlaces_map_fst]
      rw [List.map_map, List.zip_map']
      rfl
    rw [if_neg (not_lt.mpr hkey), if_pos hkey, members_poolPlaces]
    dsimp only
    rw [hzip]
    exact h.foldl_poolMember hkey fun p hp => hp
  · rw [if_pos (not_le.mp hkey), if_neg hkey, List.append_nil]
    exact ⟨h, rfl⟩

theorem PooledAt.foldl_poolBucket {buckets : List ((String × Direction) × List ℕ)}
    (hbuckets : ∀ e ∈ buckets, e.2 = (poolPlaces intents e.1).map Prod.snd)
    {s : List (String × Intent) × List ℕ} (h : PooledAt intents s) :
    let s' := buckets.foldl (fun s bucket => P300.poolBucket intents s bucket.2) s
    PooledAt intents s' ∧ ∀ i, i ∈ s'.2 ↔
      i ∈ s.2 ∨ ∃ e ∈ buckets, 2 ≤ (poolGroup intents e.1).length ∧ i ∈ e.2 := by
  induction buckets generalizing s with
  | nil => exact ⟨h, fun i => by simp⟩
  | cons e buckets ih =>
    obtain ⟨hone, hmarked⟩ := h.poolBucket e.1
    rw [← hbuckets e List.mem_cons_self] at hone hmarked
    obtain ⟨hrest, hmarks⟩ := ih (fun e' he' => hbuckets e' (List.mem_cons_of_mem e he')) hone
    refine ⟨hrest, fun i => (hmarks i).trans ?_⟩
    have hone : i ∈ (if 2 ≤ (poolGroup intents e.1).length then e.2 else []) ↔
        2 ≤ (poolGroup intents e.1).length ∧ i ∈ e.2 := by
      split
      · next hlarge => exact ⟨fun hi => ⟨hlarge, hi⟩, And.right⟩
      · next hsmall => exact ⟨fun hi => (by cases hi), fun hi => absurd hi.1 hsmall⟩
    rw [hmarked, List.mem_append, hone]
    simp only [List.mem_cons, exists_eq_or_imp, or_assoc]

theorem poolConcordantAllocations_pooledAt (intents : List (String × Intent)) :
    PooledAt intents (poolConcordantAllocations intents) ∧
      ∀ {i : ℕ} {item : String × Intent}, intents[i]? = some item →
        (i ∈ (poolConcordantAllocations intents).2 ↔ IsPooled intents item) := by
  have hstart : PooledAt intents (intents, []) := fun i => by simp
  obtain ⟨hat, hmarks⟩ := hstart.foldl_poolBucket fun e he => mem_entries_poolBuckets he
  refine ⟨hat, fun {i item} hi => (hmarks i).trans ?_⟩
  rw [or_iff_right (List.not_mem_nil)]
  constructor
  · rintro ⟨e, he, hlarge, hmem⟩
    rw [mem_entries_poolBuckets he] at hmem
    obtain ⟨p, hp, rfl⟩ := List.mem_map.mp hmem
    obtain ⟨hpi, hpkey⟩ := mem_poolPlaces.mp hp
    rw [hi] at hpi
    cases hpi
    rwa [IsPooled, poolMembers, hpkey]
  · intro hpooled
    rw [IsPooled, poolMembers] at hpooled
    cases hkey : poolKey item with
    | none =>
      rw [hkey] at hpooled
      cases hpooled
    | some key =>
      rw [hkey] at hpooled
      exact ⟨_, exists_bucket hi hkey, hpooled,
        List.mem_map.mpr ⟨(item, i), mem_poolPlaces.mpr ⟨hi, hkey⟩, rfl⟩⟩

theorem poolConcordantAllocations_fst (intents : List (String × Intent)) :
    (poolConcordantAllocations intents).1 = intents.map (pooledItem intents) := by
  obtain ⟨hat, hmarks⟩ := poolConcordantAllocations_pooledAt intents
  refine List.ext_getElem? fun i => ?_
  rw [hat, List.getElem?_map]
  cases hi : intents[i]? with
  | none => rfl
  | some item =>
    rw [Option.map_some, Option.map_some]
    split
    · rfl
    · next hunmarked => rw [pooledItem_of_not fun h => hunmarked ((hmarks hi).mpr h)]

/-- The candidates are the images of the intents, in order. -/
theorem orderedIntents_eq (intents : List (String × Intent)) :
    orderedIntents intents = (intents.map (candidateOf intents)).insertionSort priorityLe := by
  change (List.map _ (poolConcordantAllocations intents).1.zipIdx).insertionSort priorityLe = _
  refine congrArg (List.insertionSort priorityLe) (List.ext_getElem? fun i => ?_)
  rw [poolConcordantAllocations_fst]
  simp only [List.getElem?_map, List.getElem?_zipIdx]
  cases hi : intents[i]? with
  | none => rfl
  | some item =>
    have hmark : decide (i ∈ (poolConcordantAllocations intents).2) =
        decide (IsPooled intents item) :=
      decide_eq_decide.mpr ((poolConcordantAllocations_pooledAt intents).2 hi)
    rw [Option.map_some, Option.map_some, Option.map_some, Option.map_some, Nat.zero_add]
    exact congrArg (fun isPooled => some (Candidate.mk _ _ isPooled)) hmark

end Buckets

/-! ## What a group is given -/

/-- The average allocation of a group, weighted by conviction unless all convictions are zero. -/
def convictionAverage (members : List Intent) : ℚ :=
  if ∀ m ∈ members, m.conviction = 0 then (members.map (·.allocationPct)).sum / members.length
  else (members.map fun m => (m.conviction : ℚ) * m.allocationPct).sum /
    (members.map fun m => (m.conviction : ℚ)).sum

theorem sum_conviction_eq_zero_iff {members : List Intent} (h : ∀ m ∈ members, 0 ≤ m.conviction) :
    (members.map fun m => (m.conviction : ℚ)).sum ≤ 0 ↔ ∀ m ∈ members, m.conviction = 0 := by
  induction members with
  | nil => simp
  | cons m members ih =>
    obtain ⟨hm, hmembers⟩ := List.forall_mem_cons.mp h
    have hm : (0 : ℚ) ≤ m.conviction := by exact_mod_cast hm
    have hsum : 0 ≤ (members.map fun m => (m.conviction : ℚ)).sum :=
      List.sum_nonneg fun x hx => by
        obtain ⟨m', hm', rfl⟩ := List.mem_map.mp hx
        exact_mod_cast hmembers m' hm'
    rw [List.forall_mem_cons, ← ih hmembers, List.map_cons, List.sum_cons]
    constructor
    · intro hle
      have hzero : (m.conviction : ℚ) = 0 := by linarith
      exact ⟨by exact_mod_cast hzero, by linarith⟩
    · rintro ⟨hzero, hle⟩
      rw [hzero]
      simpa using hle

theorem poolShares_fst {members : List Intent} (h : ∀ m ∈ members, 0 ≤ m.conviction) :
    (poolShares members).1 = convictionAverage members := by
  rw [poolShares, convictionAverage]
  have hiff := sum_conviction_eq_zero_iff h
  split
  · next hzero => rw [if_pos (hiff.mp hzero)]
  · next hpos => rw [if_neg fun hzero => hpos (hiff.mpr hzero)]

/-- The shares of a group sum to one. -/
theorem sum_poolShare {members : List Intent} (hne : members ≠ []) :
    (members.map (poolShare members)).sum = 1 := by
  unfold poolShare
  dsimp only
  split
  · next h =>
    have hlength : (members.length : ℚ) ≠ 0 := by
      rw [Nat.cast_ne_zero, Ne, List.length_eq_zero_iff]
      exact hne
    rw [List.map_const', List.sum_replicate, nsmul_eq_mul, mul_one_div_cancel hlength]
  · next h =>
    simp only [div_eq_mul_inv]
    rw [List.sum_map_mul_right, mul_inv_cancel₀ (ne_of_gt (not_le.mp h))]

variable {intents intents' : List (String × Intent)}

/-- The group of a key after pooling. -/
theorem poolGroup_map_pooledItem (key : String × Direction) :
    poolGroup (intents.map (pooledItem intents)) key =
      (intents.filter fun item => poolKey item = some key).map fun item =>
        (pooledItem intents item).2 := by
  rw [poolGroup, List.filter_map, List.map_map]
  congr 1
  refine List.filter_congr fun item _ => ?_
  rw [Function.comp_apply, poolKey_pooledItem]

/-- A group of two or more is given its average. -/
theorem sum_poolGroup (key : String × Direction) (hkey : 2 ≤ (poolGroup intents key).length) :
    ((poolGroup (intents.map (pooledItem intents)) key).map (·.allocationPct)).sum =
      (poolShares (poolGroup intents key)).1 := by
  have hne : poolGroup intents key ≠ [] := by
    intro hnil
    rw [hnil] at hkey
    cases hkey
  have halloc : ∀ item ∈ intents.filter fun item => poolKey item = some key,
      (pooledItem intents item).2.allocationPct =
        poolShare (poolGroup intents key) item.2 * (poolShares (poolGroup intents key)).1 := by
    intro item hitem
    have hitem : poolKey item = some key := of_decide_eq_true (List.mem_filter.mp hitem).2
    have hmembers : poolMembers intents item = poolGroup intents key :=
      by rw [poolMembers, hitem]; rfl
    have hpooled : IsPooled intents item := by
      change 2 ≤ (poolMembers intents item).length
      rwa [hmembers]
    rw [pooledItem, if_pos hpooled, hmembers]
    rfl
  have hshares : ((intents.filter fun item => poolKey item = some key).map fun item =>
      poolShare (poolGroup intents key) item.2) =
      (poolGroup intents key).map (poolShare (poolGroup intents key)) := by
    rw [poolGroup, List.map_map]
    rfl
  rw [poolGroup_map_pooledItem, List.map_map]
  calc (List.map _ (intents.filter fun item => poolKey item = some key)).sum
      = ((intents.filter fun item => poolKey item = some key).map fun item =>
          poolShare (poolGroup intents key) item.2 * (poolShares (poolGroup intents key)).1).sum :=
        congrArg List.sum (List.map_congr_left halloc)
    _ = (poolShares (poolGroup intents key)).1 := by
        rw [List.sum_map_mul_right, hshares, sum_poolShare hne, one_mul]

/-! ## The order of the intents -/

theorem poolGroup_perm (h : intents'.Perm intents) (key : String × Direction) :
    (poolGroup intents' key).Perm (poolGroup intents key) := (h.filter _).map _

theorem poolShares_fst_perm {members members' : List Intent} (h : members'.Perm members) :
    (poolShares members').1 = (poolShares members).1 := by
  rw [poolShares, poolShares, (h.map _).sum_eq, h.length_eq,
    (h.map fun m => m.allocationPct).sum_eq,
      (h.map fun m => (m.conviction : ℚ) * m.allocationPct).sum_eq]
  split <;> rfl

theorem poolShare_perm {members members' : List Intent} (h : members'.Perm members) (m : Intent) :
    poolShare members' m = poolShare members m := by
  rw [poolShare, poolShare, (h.map _).sum_eq, h.length_eq]

/-- What pooling makes of an intent does not depend on the order. -/
theorem candidateOf_perm (h : intents'.Perm intents) (item : String × Intent) :
    candidateOf intents' item = candidateOf intents item := by
  have hmembers : (poolMembers intents' item).Perm (poolMembers intents item) := by
    rw [poolMembers, poolMembers]
    cases poolKey item with
    | none => exact .nil
    | some key => exact poolGroup_perm h key
  have hpooled : IsPooled intents' item ↔ IsPooled intents item := by
    rw [IsPooled, IsPooled, hmembers.length_eq]
  have hitem : pooledItem intents' item = pooledItem intents item := by
    rw [pooledItem, pooledItem]
    simp only [hpooled, poolShare_perm hmembers, poolShares_fst_perm hmembers]
  rw [candidateOf, candidateOf, hitem, decide_eq_decide.mpr hpooled]

/-- `_priority_key` -/
def priorityKey (item : String × Intent) : ℚ × ℚ := (item.2.priority, -item.2.conviction)

/-- `_priority_key(a) <= _priority_key(b)`, for the intents as they came. -/
def itemLe (a b : String × Intent) : Prop :=
  a.2.priority < b.2.priority ∨
    (a.2.priority = b.2.priority ∧ b.2.conviction ≤ a.2.conviction)

instance : DecidableRel itemLe := fun _ _ => inferInstanceAs (Decidable (_ ∨ _))

instance : IsTrans (String × Intent) itemLe where
  trans a b c hab hbc := by
    rcases hab with hab | ⟨hab, hab'⟩
    · rcases hbc with hbc | ⟨hbc, _⟩
      · exact .inl (hab.trans hbc)
      · exact .inl (hbc ▸ hab)
    · rcases hbc with hbc | ⟨hbc, hbc'⟩
      · exact .inl (hab ▸ hbc)
      · exact .inr ⟨hab.trans hbc, hbc'.trans hab'⟩

instance : Std.Total itemLe where
  total a b := by
    rcases lt_trichotomy a.2.priority b.2.priority with h | h | h
    · exact .inl (.inl h)
    · rcases le_total b.2.conviction a.2.conviction with hc | hc
      · exact .inl (.inr ⟨h, hc⟩)
      · exact .inr (.inr ⟨h.symm, hc⟩)
    · exact .inr (.inl h)

theorem itemLe_antisymm {a b : String × Intent} (h : itemLe a b) (h' : itemLe b a) :
    priorityKey a = priorityKey b := by
  rcases h with hlt | ⟨heq, hle⟩
  · rcases h' with hlt' | ⟨heq', _⟩
    · exact absurd hlt hlt'.not_gt
    · exact absurd heq' hlt.ne'
  · rcases h' with hlt' | ⟨_, hle'⟩
    · exact absurd heq hlt'.ne'
    · rw [priorityKey, priorityKey, heq, le_antisymm hle hle']

/-- Pooling does not change the key, so the candidates come in the order of the intents. -/
theorem orderedIntents_eq_map (intents : List (String × Intent)) :
    orderedIntents intents = (intents.insertionSort itemLe).map (candidateOf intents) := by
  rw [orderedIntents_eq]
  refine (List.map_insertionSort itemLe priorityLe _ _ fun a _ b _ => ?_).symm
  obtain ⟨_, ha⟩ := pooledItem_eq intents a
  obtain ⟨_, hb⟩ := pooledItem_eq intents b
  rw [candidateOf, candidateOf, ha, hb]
  rfl

/-- Intents of distinct keys have one order. -/
theorem insertionSort_itemLe_perm (h : intents'.Perm intents)
    (hkeys : (intents.map priorityKey).Nodup) :
    intents'.insertionSort itemLe = intents.insertionSort itemLe := by
  have hsorted := List.pairwise_insertionSort itemLe
  refine List.Perm.eq_of_pairwise (fun a b ha hb hab hba => ?_) (hsorted _) (hsorted _) ?_
  · have ha := h.mem_iff.mp ((List.perm_insertionSort itemLe _).mem_iff.mp ha)
    have hb := (List.perm_insertionSort itemLe _).mem_iff.mp hb
    exact List.inj_on_of_nodup_map hkeys ha hb (itemLe_antisymm hab hba)
  · exact ((List.perm_insertionSort itemLe _).trans h).trans (List.perm_insertionSort itemLe _).symm

/-- Pooling gives every group of two or more its average and changes nothing but the allocations of
their members, and the order of the intents decides nothing if no two have the same key. -/
theorem pooling_conserves_and_order_is_irrelevant
    (hconv : ∀ item ∈ intents, 0 ≤ item.2.conviction) :
    (∀ key, 2 ≤ (poolGroup intents key).length →
      ((poolGroup (poolConcordantAllocations intents).1 key).map (·.allocationPct)).sum =
        convictionAverage (poolGroup intents key)) ∧
    List.Forall₂ (fun item item' => (∃ alloc, item' = (item.1, item.2.withAllocation alloc)) ∧
      (¬ IsPooled intents item → item' = item)) intents (poolConcordantAllocations intents).1 ∧
    ∀ (limits : ReconcileLimits) (intents' : List (String × Intent)), intents'.Perm intents →
      (intents.map priorityKey).Nodup →
        reconcileIntents limits intents' = reconcileIntents limits intents := by
  rw [poolConcordantAllocations_fst]
  refine ⟨fun key hkey => ?_, ?_, fun limits intents' hperm hkeys => ?_⟩
  · have hmembers : ∀ m ∈ poolGroup intents key, 0 ≤ m.conviction := by
      intro m hm
      obtain ⟨item, hitem, rfl⟩ := List.mem_map.mp hm
      exact hconv item (List.mem_of_mem_filter hitem)
    rw [sum_poolGroup key hkey, poolShares_fst hmembers]
  · rw [List.forall₂_map_right_iff, List.forall₂_same]
    exact fun item _ => ⟨pooledItem_eq intents item, pooledItem_of_not⟩
  · have hordered : orderedIntents intents' = orderedIntents intents := by
      rw [orderedIntents_eq_map, orderedIntents_eq_map, insertionSort_itemLe_perm hperm hkeys]
      exact List.map_congr_left fun item _ => candidateOf_perm hperm item
    rw [reconcileIntents, reconcileIntents, hordered]

/-- Two LONGs on one asset that pool, and a SHORT that does not. -/
def agreeingIntents : List (String × Intent) :=
  [("S-001", ⟨"BTC", .long, 60, 1, 100, 50, none, none⟩),
   ("S-002", ⟨"BTC", .long, 40, 1, 50, 50, none, none⟩),
   ("S-003", ⟨"ETH", .short, 10, 1, 100, 60, none, none⟩)]

theorem pooling_conserves_agreeingIntents :
    ((poolGroup (poolConcordantAllocations agreeingIntents).1 ("BTC", .long)).map
      (·.allocationPct)).sum =
      convictionAverage (poolGroup agreeingIntents ("BTC", .long)) ∧
    reconcileIntents ⟨100, 1000, 1000, 1 / 2, none, none, none⟩ agreeingIntents.reverse =
      reconcileIntents ⟨100, 1000, 1000, 1 / 2, none, none, none⟩ agreeingIntents :=
  have h := @pooling_conserves_and_order_is_irrelevant agreeingIntents (by decide)
  ⟨h.1 _ (by decide), h.2.2 _ _ (List.reverse_perm _) (by decide +kernel)⟩

end P300
