import P300.Dashboard.Chart
import P300.Lib.Batches

/-!
# The fold of the panes

The tables that `dashboard/market.py` reads, and `_fold`, which puts the rows of a futures table
into bars: counts and sums of the rows, and of the spot rows of the same times.
-/

namespace P300

/-! ## Tables -/

/-- A row of a futures table, with its taker volumes. -/
structure TapeRow extends SourceRow where
  volumeBuy : Option ℚ
  volumeSell : Option ℚ

/-- A row of a spot table. -/
structure SpotRow where
  timestamp : Int
  close : Cell
  volumeBuy : Option ℚ
  volumeSell : Option ℚ

/-- A row of an open interest or a funding table: `oi_close` or `fr_close`. -/
structure SeriesRow where
  timestamp : Int
  value : Option ℚ

/-- The tables by their names, each in the order of its key. -/
structure FlowTables where
  perp : String → List TapeRow
  spot : String → List SpotRow
  series : String → List SeriesRow
  perp_sorted : ∀ table, (perp table).Pairwise fun r r' => r.timestamp < r'.timestamp
  spot_sorted : ∀ table, (spot table).Pairwise fun r r' => r.timestamp < r'.timestamp
  series_sorted : ∀ table, (series table).Pairwise fun r r' => r.timestamp < r'.timestamp

/-- Tables without rows. -/
def FlowTables.empty : FlowTables :=
  ⟨fun _ => [], fun _ => [], fun _ => [], fun _ => .nil, fun _ => .nil, fun _ => .nil⟩

/-- What `candles` reads of the tables. -/
def FlowTables.prices (db : FlowTables) : PriceTables where
  rows table := (db.perp table).map (·.toSourceRow)
  sorted table := List.pairwise_map.mpr (db.perp_sorted table)

/-- `_SPOT_SOURCES` -/
def spotSources : List ((String × String) × String) :=
  [(("BTC", "15m"), "cd_spot_15m"), (("BTC", "1h"), "cd_spot_binance"),
    (("BTC", "4h"), "cd_spot_binance"), (("BTC", "1d"), "cd_spot_binance")]

/-- `_OI_TABLES` -/
def oiTables : List (String × String) := [("BTC", "cd_open_interest")]

/-- `_FUNDING_TABLES` -/
def fundingTables : List (String × String) :=
  [("BTC", "cd_funding_rate"), ("ETH", "cd_funding_rate_eth")]

/-- `_PERP_15M` -/
def perp15m : List (String × String) := [("BTC", "cd_futures_15m"), ("ETH", "cd_futures_eth_15m")]

/-- `_SPOT_15M` -/
def spot15m : List (String × String) := [("BTC", "cd_spot_15m")]

/-- `SETTLEMENT_PERIOD_SECONDS` -/
def settlementPeriodSeconds : Int := 8 * 3600

/-- `_oi_carry` -/
def oiCarry (secs : Int) : Int := max 1 (3600 / secs)

/-- `_fund_carry` -/
def fundCarry (secs : Int) : Int := max 1 (settlementPeriodSeconds / secs)

/-- `_perp_rows` -/
def perpRows (db : FlowTables) (table : String) (start : Int) : List TapeRow :=
  (db.perp table).filter fun r => r.timestamp ≥ start

/-- `_spot_map`, as the rows that it is made of. -/
def spotMap (db : FlowTables) (table : String) (start : Int) : List SpotRow :=
  (db.spot table).filter fun r => r.timestamp ≥ start

/-- `_series`: stamps and values. -/
def seriesFrom (db : FlowTables) (table : String) (start : Int) : List (Int × ℚ) :=
  (db.series table).filterMap fun r =>
    if r.timestamp ≥ start then r.value.map (r.timestamp, ·) else none

/-- `_latest_funding` -/
def latestFunding (db : FlowTables) (table : String) (nowS : Int) : Option ℚ :=
  (((db.series table).filter fun r => r.timestamp ≤ nowS ∧
    r.timestamp % settlementPeriodSeconds = 0).filterMap (·.value)).getLast?

/-- `_funding_series`: settlements only. -/
def fundingSeries (db : FlowTables) (table : String) (start : Int) : List (Int × ℚ) :=
  (seriesFrom db table start).filter fun item => item.1 % settlementPeriodSeconds = 0

/-! ## The fold -/

/-- `vb - vs`, if both are there. -/
def delta (buy sell : Option ℚ) : Option ℚ := do
  return (← buy) - (← sell)

/-- The dictionary `cur` of `_fold`. -/
structure FlowBucket where
  time : Int
  n : ℕ := 0
  nSpot : ℕ := 0
  perpCvd : ℚ := 0
  perpOk : Bool := true
  spotCvd : ℚ := 0
  perpClose : Cell := .null
  spotClose : Cell := .null

/-- `spot.get(ts)`, if there is a map. -/
def spotAt (spot : Option (List SpotRow)) (ts : Int) : Option SpotRow :=
  spot.bind fun rows => rows.find? fun s => s.timestamp = ts

/-- A row is added to its bucket. -/
def FlowBucket.add (spot : Option (List SpotRow)) (cur : FlowBucket) (r : TapeRow) : FlowBucket :=
  let cur := { cur with n := cur.n + 1 }
  let cur := match delta r.volumeBuy r.volumeSell with
    | none => { cur with perpOk := false }
    | some d => { cur with perpCvd := cur.perpCvd + d }
  let cur := { cur with perpClose := r.close }
  match spotAt spot r.timestamp with
  | none => cur
  | some s =>
    match delta s.volumeBuy s.volumeSell with
    | none => cur
    | some d =>
      { cur with nSpot := cur.nSpot + 1, spotCvd := cur.spotCvd + d, spotClose := s.close }

/-- The time of the bar of a row: rows of the native timeframe are bars. -/
def barTime (secs native ts : Int) : Int := if secs = native then ts else Grid.floor secs ts

theorem FlowBucket.time_add (spot : Option (List SpotRow)) (cur : FlowBucket) (r : TapeRow) :
    (cur.add spot r).time = cur.time := by
  rw [FlowBucket.add]
  cases delta r.volumeBuy r.volumeSell <;> dsimp only <;> split <;> try split
  all_goals rfl

/-- The loop of `_fold`. -/
def flowBatcher (spot : Option (List SpotRow)) (secs native : Int) :
    Batcher TapeRow FlowBucket Int where
  key r := barTime secs native r.timestamp
  time := FlowBucket.time
  start b := { time := b }
  add := FlowBucket.add spot
  time_start _ := rfl
  time_add := FlowBucket.time_add spot

/-- `_fold`: the bars of a coarser timeframe that are in progress are dropped from the end. -/
def foldRows (rows : List TapeRow) (spot : Option (List SpotRow)) (secs native nowS : Int) :
    List FlowBucket :=
  let out := (flowBatcher spot secs native).bars rows
  if secs = native then out else out.rdropWhile fun bar => bar.time + secs > nowS

/-! ## The bars of the fold -/

/-- Taker buy minus sell. -/
def TapeRow.takerDelta (r : TapeRow) : Option ℚ := delta r.volumeBuy r.volumeSell

/-- Taker buy minus sell in the spot row of the same time. -/
def spotDelta (spot : Option (List SpotRow)) (r : TapeRow) : Option ℚ :=
  (spotAt spot r.timestamp).bind fun s => delta s.volumeBuy s.volumeSell

/-- The sum over all rows, if there is a value in each of them. -/
def sumOfAll (value : TapeRow → Option ℚ) (rows : List TapeRow) : Option ℚ :=
  if rows.all fun r => (value r).isSome then some (rows.filterMap value).sum else none

theorem sumOfAll_congr {value value' : TapeRow → Option ℚ} {rows : List TapeRow}
    (h : ∀ r ∈ rows, value r = value' r) : sumOfAll value rows = sumOfAll value' rows := by
  have hall : (rows.all fun r => (value r).isSome) = rows.all fun r => (value' r).isSome := by
    rw [Bool.eq_iff_iff, List.all_eq_true, List.all_eq_true]
    exact forall₂_congr fun r hr => by rw [h r hr]
  rw [sumOfAll, sumOfAll, hall, List.filterMap_congr h]

/-- The counts and sums of a bucket are those of its rows. -/
structure FlowBucket.Sums (spot : Option (List SpotRow)) (rows : List TapeRow)
    (b : FlowBucket) : Prop where
  n : b.n = rows.length
  nSpot : b.nSpot = (rows.filterMap (spotDelta spot)).length
  perpCvd : b.perpCvd = (rows.filterMap TapeRow.takerDelta).sum
  perpOk : b.perpOk = rows.all fun r => r.takerDelta.isSome
  spotCvd : b.spotCvd = (rows.filterMap (spotDelta spot)).sum

/-- The row of a bucket counts with the values that it has. -/
theorem FlowBucket.add_perp (spot : Option (List SpotRow)) (b : FlowBucket) (r : TapeRow) :
    (b.add spot r).n = b.n + 1 ∧ (b.add spot r).perpCvd = b.perpCvd + r.takerDelta.toList.sum ∧
      (b.add spot r).perpOk = (b.perpOk && r.takerDelta.isSome) := by
  have hdelta : delta r.volumeBuy r.volumeSell = r.takerDelta := rfl
  rw [FlowBucket.add, hdelta]
  cases r.takerDelta with
  | none =>
    dsimp only
    split
    · simp
    · split <;> simp
  | some d =>
    dsimp only
    split
    · simp
    · split <;> simp

theorem FlowBucket.add_spot (spot : Option (List SpotRow)) (b : FlowBucket) (r : TapeRow) :
    (b.add spot r).nSpot = b.nSpot + (spotDelta spot r).toList.length ∧
      (b.add spot r).spotCvd = b.spotCvd + (spotDelta spot r).toList.sum := by
  rw [FlowBucket.add, spotDelta]
  cases spotAt spot r.timestamp with
  | none => cases delta r.volumeBuy r.volumeSell <;> simp
  | some s =>
    rw [Option.bind_some]
    dsimp only
    cases delta s.volumeBuy s.volumeSell with
    | none => cases delta r.volumeBuy r.volumeSell <;> simp
    | some d => cases delta r.volumeBuy r.volumeSell <;> simp

theorem FlowBucket.Sums.add {spot : Option (List SpotRow)} {rows : List TapeRow} {b : FlowBucket}
    (H : b.Sums spot rows) (r : TapeRow) : (b.add spot r).Sums spot (rows ++ [r]) := by
  have hsnoc : ∀ value : TapeRow → Option ℚ,
      (rows ++ [r]).filterMap value = rows.filterMap value ++ (value r).toList := by
    intro value
    rw [List.filterMap_append]
    cases hvalue : value r <;> simp [hvalue]
  obtain ⟨hn, hperpCvd, hperpOk⟩ := FlowBucket.add_perp spot b r
  obtain ⟨hnSpot, hspotCvd⟩ := FlowBucket.add_spot spot b r
  constructor
  · rw [hn, H.n, List.length_append, List.length_singleton]
  · rw [hnSpot, H.nSpot, hsnoc, List.length_append]
  · rw [hperpCvd, H.perpCvd, hsnoc, List.sum_append]
  · rw [hperpOk, H.perpOk, List.all_append, List.all_cons, List.all_nil, Bool.and_true]
  · rw [hspotCvd, H.spotCvd, hsnoc, List.sum_append]

theorem FlowBucket.sums_start (spot : Option (List SpotRow)) (time : Int) :
    ({ time } : FlowBucket).Sums spot [] :=
  ⟨rfl, rfl, rfl, rfl, rfl⟩

theorem FlowBucket.Sums.foldl {spot : Option (List SpotRow)} {rows more : List TapeRow}
    {b : FlowBucket} (H : b.Sums spot rows) :
    (more.foldl (FlowBucket.add spot) b).Sums spot (rows ++ more) := by
  induction more generalizing rows b with
  | nil => rwa [List.append_nil]
  | cons r more ih =>
    rw [List.append_cons]
    exact ih (H.add r)

/-- The rows that belong to the bar of a time. -/
def barRows (secs native time : Int) (rows : List TapeRow) : List TapeRow :=
  rows.filter fun r => barTime secs native r.timestamp = time

/-- The bar is in progress, so that it is not shown. -/
def InProgress (secs native nowS time : Int) : Prop := secs ≠ native ∧ nowS < time + secs

/-- What `_fold` makes of rows in order. -/
structure Folded (rows : List TapeRow) (spot : Option (List SpotRow)) (secs native nowS : Int)
    (bars : List FlowBucket) : Prop where
  ascending : bars.Pairwise fun b b' => b.time < b'.time
  sums : ∀ b ∈ bars, b.Sums spot (barRows secs native b.time rows)
  mem_times : ∀ t, t ∈ bars.map (·.time) ↔
    (∃ r ∈ rows, barTime secs native r.timestamp = t) ∧ ¬ InProgress secs native nowS t

section fold

variable {rows : List TapeRow} {spot : Option (List SpotRow)} {secs native nowS : Int}

theorem barTime_mono (hsecs : 0 < secs) {ts ts' : Int} (h : ts ≤ ts') :
    barTime secs native ts ≤ barTime secs native ts' := by
  unfold barTime
  split
  · exact h
  · exact Grid.floor_mono hsecs h

theorem foldRows_folded (hsecs : 0 < secs)
    (hrows : rows.Pairwise fun r r' => r.timestamp < r'.timestamp) :
    Folded rows spot secs native nowS (foldRows rows spot secs native nowS) := by
  have hkeys : rows.Pairwise fun r r' : TapeRow =>
      barTime secs native r.timestamp ≤ barTime secs native r'.timestamp :=
    hrows.imp fun h => barTime_mono hsecs h.le
  have H : (flowBatcher spot secs native).Tracks rows
      (rows.foldl (flowBatcher spot secs native).step {}) :=
    Batcher.tracks_foldl hkeys
  have hmem : ∀ b, b ∈ foldRows rows spot secs native nowS ↔
      b ∈ (flowBatcher spot secs native).bars rows ∧ ¬ InProgress secs native nowS b.time := by
    intro b
    unfold foldRows InProgress
    dsimp only
    split
    · next h => simp [h]
    · next h =>
      have hmono : ((flowBatcher spot secs native).bars rows).Pairwise fun b b' : FlowBucket =>
          decide (b.time + secs > nowS) = true → decide (b'.time + secs > nowS) = true := by
        refine H.ascending.imp fun {b b'} hlt h => ?_
        rw [decide_eq_true_iff] at h ⊢
        exact h.trans (add_lt_add_left hlt secs)
      rw [Sorted.mem_rdropWhile_iff hmono, decide_eq_true_iff, and_iff_right h]
  have hsub : (foldRows rows spot secs native nowS).Sublist
      ((flowBatcher spot secs native).bars rows) := by
    unfold foldRows
    dsimp only
    split
    · exact List.Sublist.refl _
    · exact (List.rdropWhile_prefix _ _).sublist
  refine ⟨H.ascending.sublist hsub, fun b hb => ?_, fun t => ?_⟩
  · have hb : b = (flowBatcher spot secs native).batch b.time rows := H.whole b ((hmem b).mp hb).1
    have hsums : ((flowBatcher spot secs native).batch b.time rows).Sums spot
        (barRows secs native b.time rows) :=
      (FlowBucket.sums_start spot b.time).foldl
    rwa [← hb] at hsums
  · rw [List.mem_map]
    constructor
    · rintro ⟨b, hb, rfl⟩
      exact ⟨H.read b ((hmem b).mp hb).1, ((hmem b).mp hb).2⟩
    · rintro ⟨⟨r, hr, rfl⟩, hnot⟩
      obtain ⟨b, hb, htime⟩ := H.covered r hr
      have htime : b.time = barTime secs native r.timestamp := htime
      exact ⟨b, (hmem b).mpr ⟨hb, htime ▸ hnot⟩, htime⟩

end fold

end P300
