import Mathlib.Data.Rat.Floor
import Mathlib.Tactic.Linarith
import P300.Lib.Tally
import P300.Micro.Book

/-!
# The sample of a book

`data/sources/micro/book.py`: the row of `depth_1s` that is taken from a book each second, with the
quantities in buckets of distance from mid and how far from mid the book is exact.
-/

namespace P300

def nBuckets : ℕ := 30

/-- 10 bp. -/
def bucketFrac : ℚ := 1 / 1000

/-- 1 %. -/
def wallFrac : ℚ := 1 / 100

/-- `_EPS` -/
def bucketEps : ℚ := 1 / 1000000000

def staleMs : Int := 5000

/-- `distance_frac`; positive on the level's own side of mid. -/
def distanceFrac (px mid : ℚ) : BookSide → ℚ
  | .bid => (mid - px) / mid
  | .ask => (px - mid) / mid

/-- The price `p` is not beyond `far`. -/
def BookSide.Inside (far p : ℚ) : BookSide → Prop
  | .bid => far ≤ p
  | .ask => p ≤ far

/-- The bucket that a distance falls in. -/
def bucketIndex (d : ℚ) : Int := ⌊d / bucketFrac + bucketEps⌋

/-- `covered_buckets` -/
def coveredBuckets (knownFrac : ℚ) : ℕ :=
  if knownFrac < 0 then 0 else min nBuckets ((bucketIndex knownFrac).toNat + 1)

/-- The cell of a level; a crossed level has none, and neither has one beyond the last bucket. -/
def bucketOf (d : ℚ) : Option ℕ :=
  if d < 0 then none
  else if (bucketIndex d).toNat < nBuckets then some (bucketIndex d).toNat
  else none

/-- `bucketize`; NaN is `none`. The sums are exact: those that the code adds up and stores are
rounded to `np.float32`. -/
def bucketize (levels : Side) (mid : ℚ) (side : BookSide) (known : Option ℚ) : List (Option ℚ) :=
  let out :=
    Tally.tally nBuckets (fun level => bucketOf (distanceFrac level.1 mid side)) Prod.snd
      levels.entries
  match known with
  | none => out.map some
  | some known => out.mapIdx fun k qty => if k < coveredBuckets known then some qty else none

/-- `find_wall` -/
def findWall (levels : Side) (mid : ℚ) : Option (ℚ × ℚ) :=
  levels.entries.foldl (fun best level =>
    if |level.1 - mid| / mid ≤ wallFrac + bucketEps ∧
      level.2 > (best.map Prod.snd).getD 0 then some level
    else best) none

/-- A row of `depth_1s`. -/
structure DepthRow where
  venue : String
  symbol : String
  tsMs : Int
  bestBid : Option ℚ
  bestAsk : Option ℚ
  mid : ℚ
  bidBuckets : List (Option ℚ)
  askBuckets : List (Option ℚ)
  wallBid : Option (ℚ × ℚ)
  wallAsk : Option (ℚ × ℚ)
  nBids : ℕ
  nAsks : ℕ
  lastUpdateId : Option Int
  inSync : Bool
  bidReachPct : Option ℚ
  askReachPct : Option ℚ
  receivedMs : Int

def DepthRow.buckets (row : DepthRow) : BookSide → List (Option ℚ)
  | .bid => row.bidBuckets
  | .ask => row.askBuckets

def DepthRow.reachPct (row : DepthRow) : BookSide → Option ℚ
  | .bid => row.bidReachPct
  | .ask => row.askReachPct

namespace LocalBook

variable (b : LocalBook)

def bestBid : Option ℚ := b.bids.keys.max?

def bestAsk : Option ℚ := b.asks.keys.min?

def mid : Option ℚ := do
  let bb ← b.bestBid
  let ba ← b.bestAsk
  return (bb + ba) / 2

def isStale (receivedMs : Int) : Bool :=
  b.lastEventMs.elim false fun last => receivedMs - last > staleMs

/-- `exact_reach` -/
def exactReach (mid : ℚ) (side : BookSide) : Option ℚ :=
  (b.snapPx side).map fun px => max 0 (distanceFrac px mid side)

/-- The price of the farthest level that the book holds. -/
def farthest : BookSide → Option ℚ
  | .bid => b.bids.keys.min?
  | .ask => b.asks.keys.max?

/-- `sample` -/
def sample (symbol : String) (tsMs receivedMs : Int) (venue : String) : Option DepthRow := do
  let mid ← b.mid
  if mid ≤ 0 then none
  else
    return {
      venue, symbol, tsMs
      bestBid := b.bestBid
      bestAsk := b.bestAsk
      mid
      bidBuckets :=
        bucketize b.bids mid .bid ((b.farthest .bid).map fun px => distanceFrac px mid .bid)
      askBuckets :=
        bucketize b.asks mid .ask ((b.farthest .ask).map fun px => distanceFrac px mid .ask)
      wallBid := findWall b.bids mid
      wallAsk := findWall b.asks mid
      nBids := b.bids.entries.length
      nAsks := b.asks.entries.length
      lastUpdateId := b.lastUpdateId
      inSync := b.inSync && !b.isStale receivedMs
      bidReachPct := (b.exactReach mid .bid).map (· * 100)
      askReachPct := (b.exactReach mid .ask).map (· * 100)
      receivedMs }

end LocalBook

/-! ## Buckets -/

section buckets

variable {d d' known : ℚ} {k : ℕ}

theorem bucketFrac_pos : 0 < bucketFrac := by norm_num [bucketFrac]

theorem bucketIndex_mono (h : d ≤ d') : bucketIndex d ≤ bucketIndex d' :=
  Int.floor_le_floor (add_le_add_left (div_le_div_of_nonneg_right h bucketFrac_pos.le) _)

theorem bucketIndex_nonneg (h : 0 ≤ d) : 0 ≤ bucketIndex d := by
  have hd : 0 ≤ d / bucketFrac := div_nonneg h bucketFrac_pos.le
  exact Int.floor_nonneg.mpr (add_nonneg hd (by norm_num [bucketEps]))

theorem bucketOf_eq_some_iff : bucketOf d = some k ↔ 0 ≤ d ∧ bucketIndex d = k ∧ k < nBuckets := by
  rw [bucketOf]
  split
  · next h => exact ⟨fun hk => (by cases hk), fun hk => absurd hk.1 (not_le.mpr h)⟩
  · next h =>
    have hidx := bucketIndex_nonneg (not_lt.mp h)
    split
    · next hlt =>
      rw [Option.some_inj]
      constructor
      · rintro rfl
        exact ⟨not_lt.mp h, (Int.toNat_of_nonneg hidx).symm, hlt⟩
      · rintro ⟨_, hk, _⟩
        rw [hk, Int.toNat_natCast]
    · next hlt =>
      constructor
      · intro hk
        cases hk
      · rintro ⟨_, hk, hkn⟩
        rw [hk, Int.toNat_natCast] at hlt
        exact absurd hkn hlt

theorem lt_coveredBuckets_iff (hk : k < nBuckets) :
    k < coveredBuckets known ↔ 0 ≤ known ∧ (k : Int) ≤ bucketIndex known := by
  rw [coveredBuckets]
  split
  · next h => exact ⟨fun hlt => absurd hlt (Nat.not_lt_zero k),
      fun hle => absurd hle.1 (not_le.mpr h)⟩
  · next h =>
    have hidx := bucketIndex_nonneg (not_lt.mp h)
    rw [lt_min_iff, Nat.lt_succ_iff, Int.le_toNat hidx]
    exact ⟨fun hlt => ⟨not_lt.mp h, hlt.2⟩, fun hle => ⟨hk, hle.2⟩⟩

/-- All distances that fall in the bucket are at most `r`. -/
def BucketWithin (k : ℕ) (r : ℚ) : Prop := ∀ d, 0 ≤ d → bucketIndex d = k → d ≤ r

/-- The middle of a bucket. -/
theorem bucketIndex_middle (k : ℕ) : bucketIndex ((k + 1 / 2) * bucketFrac) = k := by
  rw [bucketIndex, mul_div_cancel_right₀ _ bucketFrac_pos.ne', Int.floor_eq_iff, bucketEps]
  push_cast
  constructor <;> linarith

theorem bucketWithin_of_lt {r : ℚ} (h : (k : Int) < bucketIndex r) : BucketWithin k r := by
  intro d _ hk
  by_contra hr
  exact absurd (bucketIndex_mono (not_le.mp hr).le) (not_le.mpr (hk ▸ h))

/-- A reach that a bucket is within falls in that bucket or beyond. -/
theorem BucketWithin.le_bucketIndex {r : ℚ} (h : BucketWithin k r) :
    0 ≤ r ∧ (k : Int) ≤ bucketIndex r := by
  have hpos : 0 < ((k : ℚ) + 1 / 2) * bucketFrac := mul_pos (by positivity) bucketFrac_pos
  have hmiddle := h _ hpos.le (bucketIndex_middle k)
  exact ⟨hpos.le.trans hmiddle, (bucketIndex_middle k).ge.trans (bucketIndex_mono hmiddle)⟩

/-- No bucket is within a reach of 0. -/
theorem bucketWithin_max {r : ℚ} : BucketWithin k (max 0 r) ↔ BucketWithin k r := by
  constructor
  · intro h
    have hpos : 0 < ((k : ℚ) + 1 / 2) * bucketFrac := mul_pos (by positivity) bucketFrac_pos
    have hmax : 0 < max 0 r := hpos.trans_le (h _ hpos.le (bucketIndex_middle k))
    rwa [max_eq_right ((lt_max_iff.mp hmax).resolve_left (lt_irrefl 0)).le] at h
  · exact fun h d hd hk => (h d hd hk).trans (le_max_right ..)

end buckets

section bucketize

variable {levels : Side} {mid known : ℚ} {side : BookSide} {k : ℕ}

/-- The levels of a bucket. -/
def bucketLevels (levels : Side) (mid : ℚ) (side : BookSide) (k : ℕ) : List (ℚ × ℚ) :=
  Tally.items (fun level => bucketOf (distanceFrac level.1 mid side)) k levels.entries

theorem getElem?_bucketize (hk : k < nBuckets) :
    (bucketize levels mid side (some known))[k]? =
      some (if k < coveredBuckets known
        then some ((bucketLevels levels mid side k).map Prod.snd).sum else none) := by
  rw [bucketize]
  rw [List.getElem?_mapIdx, Tally.getElem?_tally hk]
  rfl

theorem length_bucketize : (bucketize levels mid side (some known)).length = nBuckets := by
  rw [bucketize]
  rw [List.length_mapIdx, Tally.length_tally]

theorem distanceFrac_le_iff {p far : ℚ} (hmid : 0 < mid) :
    distanceFrac p mid side ≤ distanceFrac far mid side ↔ side.Inside far p := by
  cases side
  · exact (div_le_div_iff_of_pos_right hmid).trans (sub_le_sub_iff_left mid)
  · exact (div_le_div_iff_of_pos_right hmid).trans (sub_le_sub_iff_right mid)

end bucketize

/-! ## Rows -/

namespace LocalBook

variable {b : LocalBook} {mid : ℚ} {side : BookSide}

/-- A book with a mid has a farthest level on either side. -/
theorem farthest_of_mid (h : b.mid = some mid) (side : BookSide) :
    ∃ px, b.farthest side = some px := by
  rw [LocalBook.mid] at h
  obtain ⟨bb, hbb, h⟩ := Option.bind_eq_some_iff.mp h
  obtain ⟨ba, hba, _⟩ := Option.bind_eq_some_iff.mp h
  rw [bestBid] at hbb
  rw [bestAsk] at hba
  cases side
  · refine Option.isSome_iff_exists.mp (List.isSome_min?_of_ne_nil ?_)
    rintro hnil
    rw [hnil] at hbb
    cases hbb
  · refine Option.isSome_iff_exists.mp (List.isSome_max?_of_ne_nil ?_)
    rintro hnil
    rw [hnil] at hba
    cases hba

/-- No level is farther from mid. -/
theorem farthest_spec {px : ℚ} (h : b.farthest side = some px) (hmid : 0 < mid) :
    px ∈ (b.levels side).keys ∧ ∀ p ∈ (b.levels side).keys, distanceFrac p mid side ≤
      distanceFrac px mid side := by
  cases side
  · obtain ⟨hmem, hle⟩ := List.min?_eq_some_iff.mp h
    exact ⟨hmem, fun p hp => (distanceFrac_le_iff hmid).mpr (hle p hp)⟩
  · obtain ⟨hmem, hle⟩ := List.max?_eq_some_iff.mp h
    exact ⟨hmem, fun p hp => (distanceFrac_le_iff hmid).mpr (hle p hp)⟩

/-- What a row says of a side. -/
theorem sample_eq {symbol venue : String} {tsMs receivedMs : Int} {row : DepthRow}
    (h : b.sample symbol tsMs receivedMs venue = some row) :
    b.mid = some row.mid ∧ 0 < row.mid ∧ ∀ side,
      row.buckets side = bucketize (b.levels side) row.mid side
        ((b.farthest side).map fun px => distanceFrac px row.mid side) ∧
      row.reachPct side = (b.snapPx side).map fun px =>
        max 0 (distanceFrac px row.mid side) * 100 := by
  rw [sample] at h
  obtain ⟨mid, hmid, h⟩ := Option.bind_eq_some_iff.mp h
  split at h
  · cases h
  · next hpos =>
    cases h
    refine ⟨hmid, not_le.mp hpos, fun side => ?_⟩
    cases side
    · exact ⟨rfl, Option.map_map ..⟩
    · exact ⟨rfl, Option.map_map ..⟩

end LocalBook

end P300
