import P300.Micro.BookSync
import P300.Micro.Sample

/-!
# What a depth sample covers

A REST snapshot has the levels of the exchange up to some distance, and the diff stream adds what it
touches beyond. A book in sync then holds true levels only, and all of them inside the range of its
snapshot. A sample has the true quantity in each bucket inside that range that it does not leave
out, and it leaves one out exactly if the book holds no level there or farther out any more.
-/

namespace P300

/-! ## Snapshots of a part of the book -/

/-- The texts of the quantities of all prices inside the farthest one. -/
def NearLevels (side : BookSide) (book : ℚ → ℚ) (pairs : List (Option ℚ × Option ℚ)) : Prop :=
  ∃ levels : List (ℚ × ℚ), pairs = levels.map (fun l => (some l.1, some l.2)) ∧
    (∀ l ∈ levels, l.2 = book l.1) ∧
    ∀ far ∈ levels.map Prod.fst, 0 < book far → ∀ p, side.Inside far p → 0 < book p →
      p ∈ levels.map Prod.fst

/-- The levels after the update `id` from the lowest bid to the highest ask of the snapshot. -/
structure Exchange.Near (x : Exchange) (id : Int) (snap : Snapshot) : Prop where
  lastUpdateId : snap.lastUpdateId = some id
  bids : NearLevels .bid (x.quantity .bid id) snap.bids
  asks : NearLevels .ask (x.quantity .ask id) snap.asks

/-- Held levels are true, and inside the snapshot all are held. -/
def Exchange.nearClaim (x : Exchange) : BookClaim := fun id levels far =>
  ∀ side p, (levels side).get? p = quote (x.quantity side id p) ∨
    (levels side).get? p = none ∧ ∀ px ∈ far side, ¬ side.Inside px p

theorem Exchange.nearClaim_keeps (x : Exchange) : x.Keeps x.nearClaim := by
  intro ev hev prev id levels far hprev h1 h2 hI side p
  obtain ⟨_, _, habs⟩ := x.absolute hev hprev
  by_cases hp : p ∈ (ev.levels side).map Prod.fst
  · -- the event touches the level, inside or not
    exact .inl (get?_applyLevels_of_mem (habs side).quantity hp)
  · refine (hI side p).imp (fun h => (habs side).get? h1 h2 h) fun h => ?_
    rw [get?_applyLevels_of_not_mem hp]
    exact h

theorem NearLevels.get? {side : BookSide} {f : ℚ → ℚ} {pairs : List (Option ℚ × Option ℚ)}
    (h : NearLevels side f pairs) : ∃ out, levels_ pairs = some out ∧
      ∀ p, out.get? p = quote (f p) ∨ out.get? p = none ∧ ∀ px ∈ out.keys, ¬ side.Inside px p := by
  obtain ⟨levels, rfl, hq, hnear⟩ := h
  refine ⟨_, levels_map_some _ _, fun p => ?_⟩
  have hget := @get?_foldl_levels Dict.empty f levels hq
  by_cases hp : 0 < f p
  · by_cases hmem : p ∈ levels.map Prod.fst
    · left
      rw [hget, if_pos ⟨hp, hmem⟩, quote, if_pos hp]
    · right
      refine ⟨by rw [hget, if_neg fun h => hmem h.2, Dict.get?_empty], fun px hpx hinside => ?_⟩
      rw [Dict.mem_keys_iff, hget] at hpx
      split at hpx
      · next hfar => exact hmem (hnear px hfar.2 hfar.1 p hinside hp)
      · cases hpx
  · left
    rw [hget, if_neg fun h => hp h.1, quote, if_neg hp, Dict.get?_empty]

theorem Exchange.Near.loads {x : Exchange} {id : Int} {snap : Snapshot} (hs : x.Near id snap) :
    x.nearClaim.Loads id snap := by
  obtain ⟨bids, hbids, hb⟩ := hs.bids.get?
  obtain ⟨asks, hasks, ha⟩ := hs.asks.get?
  refine ⟨bids, asks, hs.lastUpdateId, hbids, hasks, fun b now side p => ?_⟩
  cases side
  · exact (hb p).imp_right fun h => ⟨h.1, fun px hpx => h.2 px (List.min?_mem hpx)⟩
  · exact (ha p).imp_right fun h => ⟨h.1, fun px hpx => h.2 px (List.max?_mem hpx)⟩

/-! ## Quantities in a bucket -/

/-- An exchange whose books have finitely many levels, and no negative ones. -/
structure FiniteExchange extends Exchange where
  nonneg : ∀ side id p, 0 ≤ toExchange.quantity side id p
  finite : ∀ side id, (Function.support (toExchange.quantity side id)).Finite

/-- The exchange's quantity in a bucket of distance from `mid`. -/
noncomputable def FiniteExchange.inBucket (x : FiniteExchange) (side : BookSide) (id : Int)
    (mid : ℚ) (k : ℕ) : ℚ :=
  ∑ᶠ p ∈ {p | bucketOf (distanceFrac p mid side) = some k}, x.quantity side id p

section bucket

variable {x : FiniteExchange} {side : BookSide} {id : Int} {mid : ℚ} {k : ℕ} {levels : Side}

/-- Each held level has the exchange's quantity. -/
def HeldTrue (x : Exchange) (side : BookSide) (id : Int) (levels : Side) : Prop :=
  ∀ p q, levels.get? p = some q → q = x.quantity side id p

theorem sum_bucketLevels (h : HeldTrue x.toExchange side id levels) :
    ((bucketLevels levels mid side k).map Prod.snd).sum =
      (((bucketLevels levels mid side k).map Prod.fst).map (x.quantity side id)).sum := by
  rw [List.map_map]
  refine congrArg List.sum (List.map_congr_left fun level hlevel => ?_)
  obtain ⟨hmem, _⟩ := Tally.mem_items.mp hlevel
  exact h level.1 level.2 (levels.mem_entries_iff.mp hmem)

theorem nodup_bucketLevels : ((bucketLevels levels mid side k).map Prod.fst).Nodup :=
  levels.nodup.sublist (List.filter_sublist.map _)

theorem mem_bucketLevels {p : ℚ} : p ∈ (bucketLevels levels mid side k).map Prod.fst ↔
    p ∈ levels.keys ∧ bucketOf (distanceFrac p mid side) = some k := by
  rw [List.mem_map, Dict.keys, List.mem_map]
  constructor
  · rintro ⟨level, hlevel, rfl⟩
    obtain ⟨hmem, hk⟩ := Tally.mem_items.mp hlevel
    exact ⟨⟨level, hmem, rfl⟩, hk⟩
  · rintro ⟨⟨level, hmem, rfl⟩, hk⟩
    exact ⟨level, Tally.mem_items.mpr ⟨hmem, hk⟩, rfl⟩

/-- What is held is a lower bound. -/
theorem sum_bucketLevels_le (h : HeldTrue x.toExchange side id levels) :
    ((bucketLevels levels mid side k).map Prod.snd).sum ≤ x.inBucket side id mid k := by
  rw [sum_bucketLevels h]
  exact Tally.sum_le_finsum (x.finite side id) (x.nonneg side id) nodup_bucketLevels
    fun p hp => (mem_bucketLevels.mp hp).2

/-- If all levels of the bucket are held, what is held is all. -/
theorem sum_bucketLevels_eq (h : HeldTrue x.toExchange side id levels)
    (hall : ∀ p, bucketOf (distanceFrac p mid side) = some k → 0 < x.quantity side id p →
      p ∈ levels.keys) :
    ((bucketLevels levels mid side k).map Prod.snd).sum = x.inBucket side id mid k := by
  rw [sum_bucketLevels h]
  refine Tally.sum_eq_finsum nodup_bucketLevels
    (fun p hp => (mem_bucketLevels.mp hp).2) fun p hp hq => ?_
  exact mem_bucketLevels.mpr ⟨hall p hp ((x.nonneg side id p).lt_of_ne' hq), hp⟩

end bucket

/-! ## Rows -/

section rows

variable (x : FiniteExchange) (id : Int) (b : LocalBook) (row : DepthRow)

/-- The bucket is wholly inside the reported reach. -/
def DepthRow.Reached (side : BookSide) (k : ℕ) : Prop :=
  ∃ pct ∈ row.reachPct side, ∀ d, 0 ≤ d → bucketIndex d = k → d * 100 ≤ pct

/-- The buckets inside the reach are exact. -/
def DepthRow.Exact : Prop :=
  ∀ side, ∀ k < nBuckets, row.Reached side k →
    (row.buckets side)[k]? = some (some (x.inBucket side id row.mid k))

/-- The numbers are lower bounds. -/
def DepthRow.BoundsBelow : Prop :=
  ∀ side, ∀ k qty, (row.buckets side)[k]? = some (some qty) → qty ≤ x.inBucket side id row.mid k

/-- No held level within 3 % is in a bucket that is left out. -/
def DepthRow.ShowsHeld : Prop :=
  ∀ side, ∀ p ∈ (b.levels side).keys, 0 ≤ distanceFrac p row.mid side →
    distanceFrac p row.mid side ≤ 3 / 100 →
    ∀ k : ℕ, bucketIndex (distanceFrac p row.mid side) = k → (row.buckets side)[k]? ≠ some none

/-- A level is held in the bucket or farther out. -/
def HeldFrom (levels : Side) (mid : ℚ) (side : BookSide) (k : ℕ) : Prop :=
  ∃ p ∈ levels.keys, 0 ≤ distanceFrac p mid side ∧ (k : Int) ≤ bucketIndex (distanceFrac p mid side)

/-- In or beyond each bucket on the near side of the snapshot's farthest level, a level is still
held. -/
def LocalBook.StillHolds : Prop :=
  ∀ mid ∈ b.mid, 0 < mid → ∀ side, ∀ far ∈ b.snapPx side, ∀ k < nBuckets,
    BucketWithin k (distanceFrac far mid side) →
    HeldFrom (b.levels side) mid side k

end rows

section sample

variable {x : FiniteExchange} {id : Int} {b : LocalBook} {row : DepthRow} {symbol venue : String}
  {tsMs receivedMs : Int} {side : BookSide} {k : ℕ}

theorem heldTrue_of_nearClaim (h : x.nearClaim id b.levels b.snapPx) (side : BookSide) :
    HeldTrue x.toExchange side id (b.levels side) := by
  intro p q hq
  rcases h side p with hp | hp
  · rw [hq, quote] at hp
    split at hp
    · exact Option.some_inj.mp hp
    · cases hp
  · exact absurd (hq.symm.trans hp.1) (Option.some_ne_none q)

/-- Inside the snapshot's range every level of the exchange is held. -/
theorem held_of_nearClaim (h : x.nearClaim id b.levels b.snapPx) {far p : ℚ}
    (hfar : b.snapPx side = some far) (hinside : side.Inside far p)
    (hq : 0 < x.quantity side id p) : p ∈ (b.levels side).keys := by
  rw [Dict.mem_keys_iff]
  rcases h side p with hp | hp
  · rw [hp, quote, if_pos hq]
    rfl
  · exact absurd hinside (hp.2 far hfar)

/-- A bucket is left out if nothing is held in it or beyond. -/
theorem getElem?_buckets (h : b.sample symbol tsMs receivedMs venue = some row) (side : BookSide)
    (hk : k < nBuckets) :
    HeldFrom (b.levels side) row.mid side k ∧
        (row.buckets side)[k]? = some
          (some ((bucketLevels (b.levels side) row.mid side k).map Prod.snd).sum) ∨
      ¬ HeldFrom (b.levels side) row.mid side k ∧ (row.buckets side)[k]? = some none := by
  obtain ⟨hmid, hpos, hrow⟩ := LocalBook.sample_eq h
  obtain ⟨px, hpx⟩ := LocalBook.farthest_of_mid hmid side
  obtain ⟨hmem, hle⟩ := LocalBook.farthest_spec hpx hpos
  rw [(hrow side).1, hpx, Option.map_some, getElem?_bucketize hk]
  by_cases hcovered : k < coveredBuckets (distanceFrac px row.mid side)
  · obtain ⟨hnonneg, hidx⟩ := (lt_coveredBuckets_iff hk).mp hcovered
    exact .inl ⟨⟨px, hmem, hnonneg, hidx⟩, congrArg some (if_pos hcovered)⟩
  · have hnot : ¬ HeldFrom (b.levels side) row.mid side k := by
      rintro ⟨p, hp, hnonneg, hidx⟩
      exact hcovered ((lt_coveredBuckets_iff hk).mpr
        ⟨hnonneg.trans (hle p hp), hidx.trans (bucketIndex_mono (hle p hp))⟩)
    exact .inr ⟨hnot, congrArg some (if_neg hcovered)⟩

theorem length_buckets (h : b.sample symbol tsMs receivedMs venue = some row) (side : BookSide) :
    (row.buckets side).length = nBuckets := by
  obtain ⟨hmid, _, hrow⟩ := LocalBook.sample_eq h
  obtain ⟨px, hpx⟩ := LocalBook.farthest_of_mid hmid side
  rw [(hrow side).1, hpx]
  exact length_bucketize

theorem reached_iff (h : b.sample symbol tsMs receivedMs venue = some row) :
    row.Reached side k ↔ ∃ far ∈ b.snapPx side, BucketWithin k (distanceFrac far row.mid side) := by
  obtain ⟨_, _, hrow⟩ := LocalBook.sample_eq h
  rw [DepthRow.Reached, (hrow side).2]
  constructor
  · rintro ⟨pct, hpct, hwithin⟩
    obtain ⟨far, hfar, rfl⟩ := Option.map_eq_some_iff.mp hpct
    refine ⟨far, hfar, bucketWithin_max.mp fun d hd hk => ?_⟩
    exact le_of_mul_le_mul_right (hwithin d hd hk) (by norm_num)
  · rintro ⟨far, hfar, hwithin⟩
    refine ⟨_, Option.map_eq_some_iff.mpr ⟨far, hfar, rfl⟩, fun d hd hk => ?_⟩
    exact mul_le_mul_of_nonneg_right (bucketWithin_max.mpr hwithin d hd hk) (by norm_num)

theorem boundsBelow_of_nearClaim (h : x.nearClaim id b.levels b.snapPx)
    (hrow : b.sample symbol tsMs receivedMs venue = some row) : row.BoundsBelow x id := by
  intro side k qty hqty
  have hk : k < nBuckets := by
    rw [← length_buckets hrow side]
    exact (List.getElem?_eq_some_iff.mp hqty).1
  rcases getElem?_buckets hrow side hk with ⟨_, heq⟩ | ⟨_, heq⟩
  · cases hqty.symm.trans heq
    exact sum_bucketLevels_le (heldTrue_of_nearClaim h side)
  · cases hqty.symm.trans heq

theorem showsHeld_sample (hrow : b.sample symbol tsMs receivedMs venue = some row) :
    row.ShowsHeld b := by
  intro side p hp hnonneg _ k hk hnone
  have hlt : k < nBuckets := by
    rw [← length_buckets hrow side]
    exact (List.getElem?_eq_some_iff.mp hnone).1
  rcases getElem?_buckets hrow side hlt with ⟨_, heq⟩ | ⟨hnot, _⟩
  · cases hnone.symm.trans heq
  · exact hnot ⟨p, hp, hnonneg, hk.ge⟩

/-- A bucket inside the reach that is not left out is exact. -/
theorem sum_of_reached (h : x.nearClaim id b.levels b.snapPx) {far mid : ℚ} (hmid : 0 < mid)
    (hfar : b.snapPx side = some far) (hwithin : BucketWithin k (distanceFrac far mid side)) :
    ((bucketLevels (b.levels side) mid side k).map Prod.snd).sum = x.inBucket side id mid k := by
  refine sum_bucketLevels_eq (heldTrue_of_nearClaim h side) fun p hp hq => ?_
  obtain ⟨hnonneg, hidx, _⟩ := bucketOf_eq_some_iff.mp hp
  exact held_of_nearClaim h hfar ((distanceFrac_le_iff hmid).mp (hwithin _ hnonneg hidx)) hq

theorem exact_iff (h : x.nearClaim id b.levels b.snapPx)
    (hrow : b.sample symbol tsMs receivedMs venue = some row) : row.Exact x id ↔ b.StillHolds := by
  obtain ⟨hmid, hpos, _⟩ := LocalBook.sample_eq hrow
  constructor
  · intro hexact mid hmem _ side far hfar k hk hwithin
    obtain rfl : row.mid = mid := Option.some_inj.mp (hmid.symm.trans hmem)
    have hbucket := hexact side k hk ((reached_iff hrow).mpr ⟨far, hfar, hwithin⟩)
    rcases getElem?_buckets hrow side hk with ⟨hheld, _⟩ | ⟨_, heq⟩
    · exact hheld
    · cases hbucket.symm.trans heq
  · intro hstill side k hk hreached
    obtain ⟨far, hfar, hwithin⟩ := (reached_iff hrow).mp hreached
    rcases getElem?_buckets hrow side hk with ⟨_, heq⟩ | ⟨hnot, _⟩
    · rw [heq, sum_of_reached h hpos hfar hwithin]
    · exact absurd (hstill row.mid hmid hpos side far hfar k hk hwithin) hnot

end sample

/-- It is so while the book holds the snapshot's farthest level on each side, or one beyond it. -/
theorem LocalBook.stillHolds_of_far {b : LocalBook}
    (h : ∀ side, ∀ far ∈ b.snapPx side, ∃ p ∈ (b.levels side).keys, side.Inside p far) :
    b.StillHolds := by
  intro mid _ hpos side far hfar k _ hwithin
  obtain ⟨p, hp, hinside⟩ := h side far hfar
  have hle := (distanceFrac_le_iff hpos).mpr hinside
  obtain ⟨hnonneg, hidx⟩ := hwithin.le_bucketIndex
  exact ⟨p, hp, hnonneg.trans hle, hidx.trans (bucketIndex_mono hle)⟩

/-- In every state that any deliveries can reach, a book in sync holds true levels, and all of them
inside the range of its snapshot. The samples taken from it are lower bounds and show what is held;
inside the reach they are exact if and only if they leave nothing out, that is if a level is still
held in or beyond each bucket there. -/
theorem depthSamples_honest (x : FiniteExchange) {inputs : List BookInput}
    (h : ∀ i ∈ inputs, x.DeliversOf x.Near i) (hsync : (LocalBook.run {} inputs).inSync = true) :
    ∃ id, (LocalBook.run {} inputs).lastUpdateId = some id ∧
      (∀ side, HeldTrue x.toExchange side id ((LocalBook.run {} inputs).levels side)) ∧
      (∀ side far p, (LocalBook.run {} inputs).snapPx side = some far → side.Inside far p →
        0 < x.quantity side id p → p ∈ ((LocalBook.run {} inputs).levels side).keys) ∧
      ∀ symbol venue tsMs receivedMs row,
        (LocalBook.run {} inputs).sample symbol tsMs receivedMs venue = some row →
        row.BoundsBelow x id ∧ row.ShowsHeld (LocalBook.run {} inputs) ∧
        (row.Exact x id ↔ (LocalBook.run {} inputs).StillHolds) := by
  obtain ⟨_, _, hknown⟩ := LocalBook.Synced.init.run x.nearClaim_keeps
    (fun _ _ hs => Exchange.Near.loads hs) h
  obtain ⟨id, hid, hnear⟩ := hknown hsync
  refine ⟨id, hid, heldTrue_of_nearClaim hnear, fun side far p hfar hinside hq => ?_, ?_⟩
  · exact held_of_nearClaim hnear hfar hinside hq
  · intro symbol venue tsMs receivedMs row hrow
    exact ⟨boundsBelow_of_nearClaim hnear hrow, showsHeld_sample hrow, exact_iff hnear hrow⟩

/-! The lowest bid of the snapshot is cancelled. -/

def thinEvent : DepthEvent where
  first := 1
  final := 2
  prev := some 0
  bids := [(99, 0)]

def thinExchange : FiniteExchange where
  bids id p := if p = 100 then 1 else if p = 99 ∧ id < 2 then 1 else 0
  asks _ p := if p = 101 then 1 else 0
  events := [thinEvent]
  chained := List.isChain_singleton _
  carries := by
    intro e he
    rw [List.mem_singleton.mp he]
    refine ⟨0, rfl, one_pos, one_le_two, ⟨?_, ?_⟩, ⟨fun _ h => (nomatch h), fun _ _ _ _ _ => rfl⟩⟩
    · intro l hl
      rw [List.mem_singleton.mp hl]
      decide +kernel
    · intro p hp _ _ _
      have hne : p ≠ 99 := by simpa [thinEvent] using hp
      simp [hne]
  nonneg side id p := by
    cases side <;> simp only [Exchange.quantity] <;> split_ifs <;> norm_num
  finite side id := by
    refine (Set.toFinite {99, 100, 101}).subset fun p hp => ?_
    cases side <;> simp only [Exchange.quantity, Function.mem_support] at hp <;> split_ifs at hp
      <;> simp_all

def thinInputs : List BookInput := [
  .snapshot ⟨some 1, [(some 100, some 1), (some 99, some 1)], [(some 101, some 1)]⟩ 10,
  .event thinEvent 20]

theorem thinInputs_delivers : ∀ i ∈ thinInputs, thinExchange.DeliversOf thinExchange.Near i := by
  have hbids : NearLevels .bid (thinExchange.quantity .bid 1)
      [(some 100, some 1), (some 99, some 1)] := by
    refine ⟨[(100, 1), (99, 1)], rfl, by decide +kernel, fun far _ _ p _ hp => ?_⟩
    by_contra hne
    simp_all [Exchange.quantity, thinExchange]
  have hasks : NearLevels .ask (thinExchange.quantity .ask 1) [(some 101, some 1)] := by
    refine ⟨[(101, 1)], rfl, by decide +kernel, fun far _ _ p _ hp => ?_⟩
    by_contra hne
    simp_all [Exchange.quantity, thinExchange]
  intro i hi
  rcases List.mem_cons.mp hi with rfl | hi
  · exact .inl ⟨1, rfl, hbids, hasks⟩
  · rw [List.mem_singleton.mp hi]
    exact List.mem_singleton_self _

theorem depthSamples_honest_thin : ∃ id, (LocalBook.run {} thinInputs).lastUpdateId = some id ∧
    ∀ side, HeldTrue thinExchange.toExchange side id ((LocalBook.run {} thinInputs).levels side) :=
  (depthSamples_honest thinExchange thinInputs_delivers (by decide +kernel)).imp fun _ h =>
    ⟨h.1, h.2.1⟩

/-- The reach stays at the cancelled bid, at 1.49 % of mid, and the bucket at 0.5 % is left out. -/
theorem not_depthSamples_exact : (∀ i ∈ thinInputs, thinExchange.DeliversOf thinExchange.Near i) ∧
    (LocalBook.run {} thinInputs).inSync = true ∧ ∃ row,
      (LocalBook.run {} thinInputs).sample "BTCUSDT" 1000 30 "binance" = some row ∧
      row.Reached .bid 5 ∧ (row.buckets .bid)[5]? = some none ∧ ¬ row.Exact thinExchange 2 := by
  refine ⟨thinInputs_delivers, by decide +kernel, ?_⟩
  cases hrow : (LocalBook.run {} thinInputs).sample "BTCUSDT" 1000 30 "binance" with
  | none =>
    have hsome : ((LocalBook.run {} thinInputs).sample "BTCUSDT" 1000 30 "binance").isSome :=
      by decide +kernel
    rw [hrow] at hsome
    cases hsome
  | some row =>
    have hmid : ((LocalBook.run {} thinInputs).sample "BTCUSDT" 1000 30 "binance").map (·.mid) =
        some (201 / 2) := by
      decide +kernel
    have hbucket : ((LocalBook.run {} thinInputs).sample "BTCUSDT" 1000 30 "binance").map
        (fun row => (row.buckets .bid)[5]?) = some (some none) := by
      decide +kernel
    rw [hrow] at hmid hbucket
    have hmid : row.mid = 201 / 2 := Option.some_inj.mp hmid
    have hreached : row.Reached .bid 5 := by
      refine (reached_iff hrow).mpr ⟨99, by decide +kernel, bucketWithin_of_lt ?_⟩
      rw [hmid]
      decide +kernel
    refine ⟨row, rfl, hreached, Option.some_inj.mp hbucket, fun hexact => ?_⟩
    cases (hexact .bid 5 (by decide) hreached).symm.trans (Option.some_inj.mp hbucket)

end P300
