import Mathlib.Algebra.BigOperators.Group.Finset.Piecewise
import Mathlib.Algebra.BigOperators.Ring.List
import Mathlib.Data.Rat.Floor
import P300.Dashboard.Flow
import P300.Lib.Overlap

/-!
# The delta profile

`profile` of `dashboard/market.py`: the taker delta of each 15-minute bar, spread over buckets of
price. The buckets divide the range of all bars, and a division by their width, rounded down and
clamped, finds the first and the last bucket of a bar. Values are not rounded here.
-/

namespace P300

/-- A row whose volumes, high and low are there. -/
structure ProfileRow where
  timestamp : Int
  high : ℚ
  low : ℚ
  close : Cell
  volumeBuy : ℚ
  volumeSell : ℚ

/-- The row, if it has what a profile reads. -/
def TapeRow.profileRow (r : TapeRow) : Option ProfileRow :=
  match r.high, r.low, r.volumeBuy, r.volumeSell with
  | .num high, .num low, some buy, some sell => some ⟨r.timestamp, high, low, r.close, buy, sell⟩
  | _, _, _, _ => none

/-- The rows of the window that have what a profile reads. -/
def profileRows (db : FlowTables) (table : String) (start nowS : Int) : List ProfileRow :=
  ((db.perp table).filter fun r => r.timestamp ≥ start ∧
    r.timestamp ≤ nowS).filterMap TapeRow.profileRow

def ProfileRow.delta (r : ProfileRow) : ℚ := r.volumeBuy - r.volumeSell

/-- `int(x)` -/
def truncate (x : ℚ) : Int := x.num.tdiv x.den

/-- `kidx` -/
def kidx (n : ℕ) (lo width p : ℚ) : ℕ :=
  if width ≤ 0 then 0 else min (n - 1) (max 0 (truncate ((p - lo) / width))).toNat

/-- The part of a row's delta that falls in a bucket. -/
def bucketPart (lo width : ℚ) (r : ProfileRow) (k : ℕ) : ℚ :=
  let blo := lo + k * width
  let ov := max 0 (min (blo + width) r.high - max blo r.low)
  r.delta * ov / (r.high - r.low)

/-- The delta of a row is added to the buckets `acc`. -/
def spreadRow (n : ℕ) (lo width : ℚ) (acc : List ℚ) (r : ProfileRow) : Except String (List ℚ) :=
  if width ≤ 0 ∨ r.high - r.low ≤ 0 then do
    let close ← r.close.float
    return acc.modify (kidx n lo width close) (· + r.delta)
  else
    let first := kidx n lo width r.low
    let last := kidx n lo width r.high
    return (List.range' first (last + 1 - first)).foldl
      (fun acc k => acc.modify k (· + bucketPart lo width r k)) acc

structure ProfileBucket where
  lo : ℚ
  hi : ℚ
  delta : ℚ

/-- The returned dictionary. -/
structure Profile where
  asset : String
  hours : Int
  from_ : Int
  to_ : Int
  nBars : ℕ
  priceLo : Option ℚ
  priceHi : Option ℚ
  bucketWidth : Option ℚ
  lastPrice : Option ℚ
  totalDelta : ℚ
  maxAbs : ℚ
  buckets : List ProfileBucket

/-- `profile` -/
def profile (db : FlowTables) (asset : String) (hours buckets nowS : Int) : Except String Profile :=
  let asset := chartAsset asset
  match perp15m.lookup asset with
  | none => .error s!"unsupported asset: {asset}"
  | some table =>
    if ¬ (1 ≤ hours ∧ hours ≤ 168) ∨ ¬ (4 ≤ buckets ∧ buckets ≤ 100) then
      .error s!"bad profile window: hours={hours} buckets={buckets}"
    else
      let start := nowS - hours * 3600
      let rows := profileRows db table start nowS
      match rows.getLast?, (rows.map (·.low)).min?, (rows.map (·.high)).max? with
      | some last, some lo, some hi => do
        let n := buckets.toNat
        let width := (hi - lo) / n
        let acc ← rows.foldlM (spreadRow n lo width) (List.replicate n 0)
        let lastPrice ← last.close.float
        return ⟨asset, hours, start, nowS, rows.length, some lo, some hi, some width,
          some lastPrice, (rows.map ProfileRow.delta).sum, (acc.map fun v => |v|).max?.getD 0,
          (acc.mapIdx fun k v => ⟨lo + k * width, lo + (k + 1) * width, v⟩).reverse⟩
      | _, _, _ => .ok ⟨asset, hours, start, nowS, rows.length, none, none, none, none, 0, 0, []⟩

/-! ## The bucket of a price -/

section buckets

variable {n : ℕ} {lo hi width p : ℚ}

theorem truncate_eq_floor {x : ℚ} (hx : 0 ≤ x) : truncate x = ⌊x⌋ :=
  (Int.tdiv_eq_ediv_of_nonneg (Rat.num_nonneg.mpr hx)).trans (Rat.floor_def x).symm

/-- A price between the ends lies in its bucket; the top edge belongs to the last one. -/
theorem kidx_spec (hn : 0 < n) (hwidth : 0 < width) (hlo : lo ≤ p) (hhi : p ≤ lo + n * width) :
    kidx n lo width p < n ∧ lo + kidx n lo width p * width ≤ p ∧
      p ≤ lo + (kidx n lo width p + 1) * width := by
  set q := (p - lo) / width with hq
  have hp : p = lo + q * width := by rw [hq, div_mul_cancel₀ _ hwidth.ne']; ring
  have hq0 : 0 ≤ q := div_nonneg (sub_nonneg.mpr hlo) hwidth.le
  have hidx : kidx n lo width p = min (n - 1) ⌊q⌋.toNat := by
    rw [kidx, if_neg hwidth.not_ge, ← hq, truncate_eq_floor hq0,
      max_eq_right (Int.floor_nonneg.mpr hq0)]
  have hfloor : ((⌊q⌋.toNat : ℕ) : ℚ) = ⌊q⌋ := by
    exact_mod_cast Int.toNat_of_nonneg (Int.floor_nonneg.mpr hq0)
  rw [hidx]
  refine ⟨lt_of_le_of_lt (min_le_left ..) (Nat.sub_lt hn one_pos), ?_, ?_⟩
  · have hle : ((min (n - 1) ⌊q⌋.toNat : ℕ) : ℚ) ≤ q :=
      (Nat.cast_le.mpr (min_le_right ..)).trans (hfloor.trans_le (Int.floor_le q))
    rw [hp]
    gcongr
  · rcases le_total (n - 1) ⌊q⌋.toNat with h | h
    · have hcast : ((n - 1 : ℕ) : ℚ) + 1 = n := by exact_mod_cast Nat.sub_add_cancel hn
      rwa [min_eq_left h, hcast]
    · rw [min_eq_right h, hfloor]
      have hlt := (Int.lt_floor_add_one q).le
      rw [hp]
      gcongr

/-- What a row gives to bucket `k`: a row of one price gives all of its delta to the bucket of its
close, another one gives to each bucket from that of its low to that of its high. -/
def ProfileRow.share (n : ℕ) (lo width : ℚ) (r : ProfileRow) (k : ℕ) : ℚ :=
  if width ≤ 0 ∨ r.high - r.low ≤ 0 then
    match r.close with
    | .num close => if kidx n lo width close = k then r.delta else 0
    | .null => 0
  else if kidx n lo width r.low ≤ k ∧ k ≤ kidx n lo width r.high then bucketPart lo width r k
  else 0

/-- The loop over the buckets of a row. -/
theorem foldl_modify (part : ℕ → ℚ) {ks : List ℕ} (hks : ks.Nodup) (acc : List ℚ) :
    let acc' := ks.foldl (fun acc k => acc.modify k (· + part k)) acc
    acc'.length = acc.length ∧
      ∀ k : ℕ, acc'[k]? = acc[k]?.map fun x => x + if k ∈ ks then part k else 0 := by
  induction ks generalizing acc with
  | nil =>
    refine ⟨rfl, fun k => ?_⟩
    simp only [List.not_mem_nil, if_false, add_zero, Option.map_id']
    rfl
  | cons k ks ih =>
    obtain ⟨hk, hks⟩ := List.nodup_cons.mp hks
    obtain ⟨hlen, hget⟩ := ih hks (acc.modify k (· + part k))
    refine ⟨hlen.trans (List.length_modify ..), fun j => (hget j).trans ?_⟩
    rw [List.getElem?_modify, Option.map_eq_map, Option.map_map]
    by_cases hj : k = j
    · subst hj
      cases acc[k]? <;> simp [hk]
    · have hmem : j ∈ k :: ks ↔ j ∈ ks := by
        rw [List.mem_cons, or_iff_right (Ne.symm hj)]
      cases acc[j]? <;> simp [hj, hmem]

/-- A row adds to each bucket what it gives to it. -/
theorem spreadRow_share {r : ProfileRow} {acc acc' : List ℚ}
    (h : spreadRow n lo width acc r = .ok acc') :
    acc'.length = acc.length ∧ ∀ k : ℕ, acc'[k]? = acc[k]?.map (· + r.share n lo width k) := by
  unfold spreadRow at h
  split at h
  · next hone =>
    obtain ⟨close, hclose, h⟩ := of_bind_ok h
    cases h
    refine ⟨List.length_modify .., fun k => ?_⟩
    cases hcell : r.close with
    | null =>
      rw [hcell] at hclose
      cases hclose
    | num x =>
      rw [hcell] at hclose
      cases hclose
      rw [List.getElem?_modify, ProfileRow.share, if_pos hone, hcell]
      dsimp only
      cases acc[k]? with
      | none => rfl
      | some v =>
        by_cases hk : kidx n lo width close = k <;> simp [hk]
  · next hmany =>
    cases h
    obtain ⟨hlen, hget⟩ := foldl_modify (bucketPart lo width r)
      (List.nodup_range' (s := kidx n lo width r.low)
        (n := kidx n lo width r.high + 1 - kidx n lo width r.low)) acc
    refine ⟨hlen, fun k => (hget k).trans ?_⟩
    have hmem : k ∈ List.range' (kidx n lo width r.low)
        (kidx n lo width r.high + 1 - kidx n lo width r.low) ↔
        kidx n lo width r.low ≤ k ∧ k ≤ kidx n lo width r.high := by
      rw [List.mem_range'_1]
      omega
    rw [ProfileRow.share, if_neg hmany]
    simp only [hmem]

/-- All of a row's delta is given to buckets, and only to those that meet its range. -/
structure ProfileRow.Shared (r : ProfileRow) (n : ℕ) (lo width : ℚ) : Prop where
  total : ∑ k ∈ Finset.range n, r.share n lo width k = r.delta
  meets : ∀ k < n, r.share n lo width k ≠ 0 →
    lo + k * width ≤ r.high ∧ r.low ≤ lo + (k + 1) * width

/-- The parts of the buckets that cover a row's range. -/
theorem sum_bucketPart {r : ProfileRow} {first m : ℕ} (hwidth : 0 ≤ width) (hlh : r.low < r.high)
    (hlo : lo + first * width ≤ r.low) (hhi : r.high ≤ lo + (first + m : ℕ) * width) :
    ((List.range' first m).map (bucketPart lo width r)).sum = r.delta := by
  have hpart : ∀ k : ℕ, bucketPart lo width r k =
      Overlap.overlap (lo + k * width)
        (lo + (k + 1 : ℕ) * width) r.low r.high * (r.delta / (r.high - r.low)) := by
    intro k
    have hedge : lo + (k + 1 : ℕ) * width = lo + k * width + width := by push_cast; ring
    rw [bucketPart, hedge, Overlap.overlap]
    ring
  have hcells : ∀ k : ℕ, lo + k * width ≤ lo + (k + 1 : ℕ) * width := fun k => by gcongr; omega
  have hspan : r.high - r.low ≠ 0 := (sub_pos.mpr hlh).ne'
  rw [List.map_congr_left fun k _ => hpart k, List.sum_map_mul_right,
    Overlap.sum_overlap (e := fun k : ℕ => lo + k * width) hcells hlh.le hlo hhi,
    mul_div_cancel₀ _ hspan]

/-- The close of a row lies in its range. -/
def ProfileRow.Closed (r : ProfileRow) : Prop :=
  ∃ close, r.close = .num close ∧ r.low ≤ close ∧ close ≤ r.high

/-- A row of one price gives all of its delta to a bucket that meets it. -/
theorem ProfileRow.Shared.single {r : ProfileRow} {close : ℚ} {k : ℕ}
    (hone : width ≤ 0 ∨ r.high - r.low ≤ 0) (hclose : r.close = .num close)
    (hkidx : kidx n lo width close = k) (hk : k < n) (hlo : lo + k * width ≤ r.high)
    (hhi : r.low ≤ lo + (k + 1) * width) : r.Shared n lo width := by
  have hshare : ∀ j, r.share n lo width j = if k = j then r.delta else 0 := fun j => by
    rw [ProfileRow.share, if_pos hone, hclose]
    dsimp only
    rw [hkidx]
  constructor
  · rw [Finset.sum_congr rfl fun j _ => hshare j, Finset.sum_ite_eq,
      if_pos (Finset.mem_range.mpr hk)]
  · intro j _ hj
    rw [hshare] at hj
    obtain rfl : k = j := by_contra fun hne => hj (if_neg hne)
    exact ⟨hlo, hhi⟩

/-- A row over a range gives its delta to the buckets from that of its low to that of its high. -/
theorem ProfileRow.Shared.range {r : ProfileRow} {first last : ℕ} (hwidth : 0 < width)
    (hlh : r.low < r.high) (hfirst : kidx n lo width r.low = first)
    (hlast : kidx n lo width r.high = last) (hn : last < n)
    (hlow : lo + first * width ≤ r.low ∧ r.low ≤ lo + (first + 1) * width)
    (hhigh : lo + last * width ≤ r.high ∧ r.high ≤ lo + (last + 1) * width) :
    r.Shared n lo width := by
  have hmono : ∀ {i j : ℕ}, i ≤ j → lo + i * width ≤ lo + j * width := fun h => by gcongr
  have hordered : first ≤ last := by
    by_contra h
    have hedge := hmono (Nat.succ_le_of_lt (not_le.mp h))
    push_cast at hedge
    linarith [hlow.1, hhigh.2]
  have hshare : ∀ k, r.share n lo width k =
      if first ≤ k ∧ k ≤ last then bucketPart lo width r k else 0 := fun k => by
    have hspan : ¬ r.high - r.low ≤ 0 := not_le.mpr (sub_pos.mpr hlh)
    rw [ProfileRow.share, if_neg (not_or.mpr ⟨hwidth.not_ge, hspan⟩), hfirst, hlast]
  constructor
  · have hcells : (Finset.range n).filter (fun k => first ≤ k ∧ k ≤ last) =
        (List.range' first (last + 1 - first)).toFinset := by
      ext k
      rw [Finset.mem_filter, Finset.mem_range, List.mem_toFinset, List.mem_range'_1]
      omega
    rw [Finset.sum_congr rfl fun k _ => hshare k, ← Finset.sum_filter, hcells,
      List.sum_toFinset _ List.nodup_range', sum_bucketPart hwidth.le hlh hlow.1]
    have hend : first + (last + 1 - first) = last + 1 := by omega
    rw [hend]
    push_cast
    exact hhigh.2
  · intro k _ hk
    rw [hshare] at hk
    obtain ⟨hk, hk'⟩ : first ≤ k ∧ k ≤ last := by_contra fun hne => hk (if_neg hne)
    have hedge := hmono (Nat.succ_le_succ hk)
    push_cast at hedge
    exact ⟨(hmono hk').trans hhigh.1, hlow.2.trans hedge⟩

theorem shared_of_closed {r : ProfileRow} (hn : 0 < n) (hclose : r.Closed)
    (hhi : hi = lo + n * width) (hl : lo ≤ r.low) (hh : r.high ≤ hi) : r.Shared n lo width := by
  obtain ⟨close, hnum, hlc, hch⟩ := hclose
  rcases le_or_gt width 0 with hwidth | hwidth
  · -- all prices are the same, so that the first bucket has them all
    have hnonneg : 0 ≤ n * width := by linarith
    obtain rfl : width = 0 :=
      le_antisymm hwidth (nonneg_of_mul_nonneg_right hnonneg (Nat.cast_pos.mpr hn))
    refine .single (.inl le_rfl) hnum (if_pos le_rfl) hn ?_ ?_ <;> linarith
  · have hle : ∀ {p}, lo ≤ p → p ≤ hi → _ := fun hlo hp => kidx_spec hn hwidth hlo (hhi ▸ hp)
    rcases le_or_gt (r.high - r.low) 0 with hspan | hspan
    · obtain ⟨hk, hklo, hkhi⟩ := hle (hl.trans hlc) (hch.trans hh)
      exact .single (.inr hspan) hnum rfl hk (hklo.trans hch) (hlc.trans hkhi)
    · have hlh : r.low < r.high := sub_pos.mp hspan
      obtain ⟨-, hlow⟩ := hle hl (hlh.le.trans hh)
      obtain ⟨hlast, hhigh⟩ := hle (hl.trans hlh.le) hh
      exact .range hwidth hlh rfl rfl hlast hlow hhigh

theorem spreadRow_ok {r : ProfileRow} (hclose : r.Closed) (n : ℕ) (lo width : ℚ) (acc : List ℚ) :
    ∃ acc', spreadRow n lo width acc r = .ok acc' := by
  obtain ⟨close, hnum, -, -⟩ := hclose
  unfold spreadRow
  split
  · rw [hnum]
    exact ⟨_, rfl⟩
  · exact ⟨_, rfl⟩

/-- The rows together add to each bucket what each of them gives to it. -/
theorem foldlM_spreadRow {rows : List ProfileRow} (hrows : ∀ r ∈ rows, r.Closed) (n : ℕ)
    (lo width : ℚ) (acc : List ℚ) :
    ∃ acc', rows.foldlM (spreadRow n lo width) acc = .ok acc' ∧ acc'.length = acc.length ∧
      ∀ k : ℕ, acc'[k]? = acc[k]?.map (· + (rows.map (·.share n lo width k)).sum) := by
  induction rows generalizing acc with
  | nil => exact ⟨acc, rfl, rfl, fun k => by simp⟩
  | cons r rows ih =>
    obtain ⟨hclose, hrows⟩ := List.forall_mem_cons.mp hrows
    obtain ⟨next, hnext⟩ := spreadRow_ok hclose n lo width acc
    obtain ⟨hlen, hget⟩ := spreadRow_share hnext
    obtain ⟨acc', hacc', hlen', hget'⟩ := ih hrows next
    refine ⟨acc', ?_, hlen'.trans hlen, fun k => ?_⟩
    · rw [List.foldlM_cons, hnext]
      exact hacc'
    · rw [hget' k, hget k, Option.map_map]
      refine congrArg (Option.map · acc[k]?) (funext fun x => ?_)
      rw [Function.comp_apply, List.map_cons, List.sum_cons, add_assoc]

end buckets

/-! ## The profile -/

/-- The buckets of a profile share out what its rows have: each is the sum of what the rows give to
it, and a row gives all of its delta, to buckets that meet its range only. -/
structure Profile.Conserves (rows : List ProfileRow) (n : ℕ) (res : Profile) : Prop where
  total : (res.buckets.map (·.delta)).sum = res.totalDelta
  deltas : res.totalDelta = (rows.map ProfileRow.delta).sum
  spread : rows ≠ [] → ∃ lo width, res.priceLo = some lo ∧ res.bucketWidth = some width ∧
    res.buckets = ((List.range n).map fun k : ℕ =>
      { lo := lo + k * width, hi := lo + (k + 1) * width
        delta := (rows.map (·.share n lo width k)).sum }).reverse ∧
    ∀ r ∈ rows, r.Shared n lo width

/-- The sums over the buckets are the deltas of the rows. -/
theorem sum_shares {rows : List ProfileRow} {n : ℕ} {lo width : ℚ}
    (hrows : ∀ r ∈ rows, r.Shared n lo width) :
    ((List.range n).map fun k => (rows.map (·.share n lo width k)).sum).sum =
      (rows.map ProfileRow.delta).sum := by
  have hswap : ∑ k ∈ Finset.range n, (rows.map (·.share n lo width k)).sum =
      (rows.map fun r => ∑ k ∈ Finset.range n, r.share n lo width k).sum := by
    induction rows with
    | nil => simp
    | cons r rows ih =>
      simp only [List.map_cons, List.sum_cons]
      rw [Finset.sum_add_distrib, ih fun r' hr' => hrows r' (List.mem_cons_of_mem r hr')]
  rw [← List.map_congr_left fun r hr => (hrows r hr).total, ← hswap]
  rfl

/-- A profile conserves volume. -/
theorem profile_conserves (db : FlowTables) {asset table : String} {hours buckets nowS : Int}
    (htable : perp15m.lookup (chartAsset asset) = some table) (hhours : 1 ≤ hours ∧ hours ≤ 168)
    (hbuckets : 4 ≤ buckets ∧ buckets ≤ 100)
    (hrows : ∀ r ∈ profileRows db table (nowS - hours * 3600) nowS, r.Closed) :
    ∃ res, profile db asset hours buckets nowS = .ok res ∧
      res.Conserves (profileRows db table (nowS - hours * 3600) nowS) buckets.toNat := by
  unfold profile
  dsimp only
  rw [htable]
  dsimp only
  rw [if_neg (not_or.mpr ⟨not_not.mpr hhours, not_not.mpr hbuckets⟩)]
  generalize profileRows db table (nowS - hours * 3600) nowS = rows at hrows ⊢
  have hn : 0 < buckets.toNat := by omega
  generalize buckets.toNat = n at hn ⊢
  cases hlast : rows.getLast? with
  | none =>
    obtain rfl := List.getLast?_eq_none_iff.mp hlast
    exact ⟨_, rfl, rfl, rfl, fun hne => absurd rfl hne⟩
  | some last =>
    have hmem := List.mem_of_getLast? hlast
    have hne : rows ≠ [] := List.ne_nil_of_mem hmem
    cases hlo : (rows.map (·.low)).min? with
    | none => exact (hne (List.map_eq_nil_iff.mp (List.min?_eq_none_iff.mp hlo))).elim
    | some lo =>
      cases hhi : (rows.map (·.high)).max? with
      | none => exact (hne (List.map_eq_nil_iff.mp (List.max?_eq_none_iff.mp hhi))).elim
      | some hi =>
        have hlow :=
          fun r hr => (List.min?_eq_some_iff.mp hlo).2 _ (List.mem_map_of_mem (a := r) hr)
        have hhigh :=
          fun r hr => (List.max?_eq_some_iff.mp hhi).2 _ (List.mem_map_of_mem (a := r) hr)
        have htop : hi = lo + n * ((hi - lo) / n) := by
          rw [mul_div_cancel₀ _ (Nat.cast_ne_zero.mpr hn.ne')]
          ring
        obtain ⟨acc, hacc, hlen, hget⟩ := foldlM_spreadRow hrows n lo ((hi - lo) / n)
          (List.replicate n 0)
        obtain ⟨close, hclose, -, -⟩ := hrows last hmem
        have hshared : ∀ r ∈ rows, r.Shared n lo ((hi - lo) / n) := fun r hr =>
          shared_of_closed hn (hrows r hr) htop (hlow r hr) (hhigh r hr)
        have hbuckets : acc.mapIdx (fun k v => ProfileBucket.mk (lo + k * ((hi - lo) / n))
            (lo + (k + 1) * ((hi - lo) / n)) v) = (List.range n).map fun k : ℕ =>
              ProfileBucket.mk (lo + k * ((hi - lo) / n)) (lo + (k + 1) * ((hi - lo) / n))
                (rows.map (·.share n lo ((hi - lo) / n) k)).sum := by
          refine List.ext_getElem? fun k => ?_
          rw [List.getElem?_mapIdx, hget, List.getElem?_map, List.getElem?_replicate]
          by_cases hk : k < n
          · rw [if_pos hk, List.getElem?_range hk]
            simp
          · rw [if_neg hk, List.getElem?_eq_none (by rwa [List.length_range, ← not_lt])]
            rfl
        dsimp only
        rw [hacc, hclose]
        refine ⟨_, rfl, ?_, rfl,
          fun _ => ⟨lo, _, rfl, rfl, congrArg List.reverse hbuckets, hshared⟩⟩
        dsimp only
        rw [hbuckets, List.map_reverse, List.sum_reverse, List.map_map]
        exact sum_shares hshared

/-- A row over all buckets, one that ends at an edge, and one of a single price at the top. -/
def edgeTables : FlowTables :=
  { FlowTables.empty with
    perp table :=
      if table = "cd_futures_15m" then
        [⟨⟨0, .null, .num 44, .num 40, .num 41⟩, some 10, some 2⟩,
          ⟨⟨900, .null, .num 43, .num 42, .num 43⟩, some 5, some 9⟩,
          ⟨⟨1800, .null, .num 44, .num 44, .num 44⟩, some 3, some 2⟩]
      else []
    perp_sorted table := by
      split
      · simp
      · exact .nil }

theorem profile_conserves_edges :
    (profile edgeTables "btc" 1 4 2000).map (fun res => res.buckets.map (·.delta)) =
      .ok [3, -2, 2, 2] ∧
    ∃ res, profile edgeTables "btc" 1 4 2000 = .ok res ∧
      res.Conserves (profileRows edgeTables "cd_futures_15m" (2000 - 1 * 3600) 2000) 4 := by
  refine ⟨by decide +kernel, @profile_conserves edgeTables "btc" "cd_futures_15m" 1 4 2000
    (by decide +kernel)
    (by decide) (by decide) fun r hr => ?_⟩
  have hrows : profileRows edgeTables "cd_futures_15m" (2000 - 1 * 3600) 2000 =
      [⟨0, 44, 40, .num 41, 10, 2⟩, ⟨900, 43, 42, .num 43, 5, 9⟩, ⟨1800, 44, 44, .num 44, 3, 2⟩] :=
        rfl
  rw [hrows] at hr
  obtain rfl | rfl | rfl := by simpa using hr
  · exact ⟨41, rfl, by norm_num, by norm_num⟩
  · exact ⟨43, rfl, by norm_num, by norm_num⟩
  · exact ⟨44, rfl, by norm_num, by norm_num⟩

end P300
