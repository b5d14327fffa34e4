import Mathlib.Data.List.Sort
import Mathlib.Data.Rat.Floor
import P300.Calendar
import P300.Dashboard.Fold
import P300.Lib.Bisect
import P300.Lib.Dict
import P300.Lib.Pass

/-!
# Flow bars

`flow` of `dashboard/market.py`: the panes under the chart. It reads the rows of the chart's table
once more, puts them into bars with code of its own (`_fold`), and attaches open interest and
funding. A refresh starts some bars before the one it is asked for and cuts these off at the end.
The values of the bars are not rounded here.

Before the bars there are the label gates (`_thresholds`, which are cached for a day) and the tape
(`_tape`); an open interest of 0 or a missing close ends the call there with an exception. The
gauges of the squeeze bot, which raise nothing, and the text of the tape are left out.
-/

namespace P300

/-! ## The bars -/

/-- `_attach` for one bar. -/
def attach (series : List (Int × ℚ)) (secs carry : Int) (bar : FlowBucket) : Option ℚ :=
  match Bisect.bisectRight (series.map Prod.fst) (bar.time + secs - 1) with
  | 0 => none
  | j + 1 =>
    series[j]?.bind fun (ts, value) => if ts ≥ bar.time - carry * secs then some value else none

/-- `_label` -/
def flowLabel (cvd doi cvdThr oiThr : Option ℚ) : Option String := do
  let cvd ← cvd
  let doi ← doi
  if cvd = 0 ∨ doi = 0 then none
  let cvdThr ← cvdThr
  let oiThr ← oiThr
  if |cvd| < cvdThr ∨ |doi| < oiThr then none
  if cvd > 0 then return if doi > 0 then "longs_opening" else "short_covering"
  return if doi > 0 then "shorts_opening" else "longs_closing"

/-! ## The label gates -/

/-- `_LABEL_POOL_DAYS` -/
def labelPoolDays : List (String × Int) := [("15m", 90), ("1h", 90), ("4h", 90), ("1d", 365)]

/-- `_LABEL_PCT` -/
def labelPct : ℚ := 60

/-- `_LABEL_MIN_POOL` -/
def labelMinPool : ℕ := 60

/-- `np.percentile(pool, pct)`: between the two neighbours in order, by the distance. -/
def percentile (pool : List ℚ) (pct : ℚ) : ℚ :=
  let sorted := pool.insertionSort (· ≤ ·)
  let place := (pool.length - 1 : ℕ) * pct / 100
  let i := ⌊place⌋.toNat
  let lower := sorted.getD i 0
  lower + (sorted.getD (i + 1) lower - lower) * (place - i)

/-- The percentile of a pool that is large enough. -/
def poolGate (pool : List ℚ) : Option ℚ :=
  if pool.length ≥ labelMinPool then some (percentile pool labelPct) else none

/-- The dictionary `thr` of `_thresholds`. -/
structure FlowThresholds where
  cvdAbsP60 : Option ℚ
  oiAbsP60 : Option ℚ
  poolDays : Int
  poolN : ℕ
  oiPoolN : ℕ
  deriving DecidableEq

/-- `abs((cur - prev) / prev * 100)` of two values in a row that are there and differ. -/
def oiMove : Option ℚ × Option ℚ → Except String (Option ℚ)
  | (some prev, some cur) =>
    if cur = prev then .ok none
    else if prev = 0 then .error "ZeroDivisionError"
    else .ok (some |(cur - prev) / prev * 100|)
  | _ => .ok none

/-- The completed bars of the pool. -/
def poolBars (db : FlowTables) (table : String) (secs native poolStart nowS : Int) :
    List FlowBucket :=
  foldRows (perpRows db table poolStart) none secs native nowS

/-- The open interest of the bars of the pool; none for an asset without a table. -/
def poolOi (db : FlowTables) (oiTable : Option String) (table : String)
    (secs native poolStart nowS : Int) : List (Option ℚ) :=
  match oiTable with
  | none => []
  | some oiTable =>
    (poolBars db table secs native poolStart nowS).map
      (attach (seriesFrom db oiTable (poolStart - 86400)) secs (oiCarry secs))

/-- `_thresholds` without the cache. -/
def freshThresholds (db : FlowTables) (oiTable : Option String) (table : String)
    (secs native poolDays nowS : Int) : Except String FlowThresholds := do
  let poolStart := nowS - poolDays * 86400
  let bars := poolBars db table secs native poolStart nowS
  let cvdPool := (bars.filter (·.perpOk)).map fun b => |b.perpCvd|
  let oi := poolOi db oiTable table secs native poolStart nowS
  let moves ← (oi.zip oi.tail).mapM oiMove
  let oiPool := moves.filterMap id
  return ⟨poolGate cvdPool, poolGate oiPool, poolDays, cvdPool.length, oiPool.length⟩

/-- A key of `_thr_cache`: asset, timeframe and UTC date; there is one database. -/
abbrev ThrKey := (String × String) × String

/-- `_thr_cache` -/
abbrev ThrCache := Dict ThrKey FlowThresholds

def thrKey (asset tf : String) (nowS : Int) : ThrKey := ((asset, tf), dateIso (nowS / 86400))

/-- `_thresholds`, with the cache after it. -/
def thresholds (db : FlowTables) (cache : ThrCache) (key : ThrKey) (oiTable : Option String)
    (table : String) (secs native poolDays nowS : Int) : Except String FlowThresholds × ThrCache :=
  match cache.get? key with
  | some hit => (.ok hit, cache)
  | none =>
    match freshThresholds db oiTable table secs native poolDays nowS with
    | .error e => (.error e, cache)
    | .ok thr => (.ok thr, (if cache.entries.length > 32 then .empty else cache).set key thr)

/-! ## The tape -/

/-- `round(x, nd)`, half to even. -/
def roundTo (nd : ℕ) (x : ℚ) : ℚ :=
  let scaled := x * 10 ^ nd
  let lower := ⌊scaled⌋
  let rest := scaled - lower
  (if rest < 1 / 2 ∨ rest = 1 / 2 ∧ lower % 2 = 0 then lower else lower + 1 : ℤ) / 10 ^ nd

/-- The dictionary `d` of `_tape`, less its text. -/
structure TapeRead where
  windowH : Int
  pricePct : Option ℚ
  perpCvd : Option ℚ
  spotCvd : Option ℚ
  oiPct : Option ℚ
  label : Option String
  funding : Option ℚ
  deriving DecidableEq

/-- `float(cell)` -/
def Cell.float : Cell → Except String ℚ
  | .num x => .ok x
  | .null => .error "TypeError"

/-- The rows of a table that are stamped in a window. -/
def windowRows (db : FlowTables) (table : String) (start nowS : Int) : List TapeRow :=
  (db.perp table).filter fun r => r.timestamp ≥ start ∧ r.timestamp ≤ nowS

/-- `(rows[-1]["close"] / rows[0]["open"] - 1) * 100`, if there are two rows and an open price. -/
def tapePrice (rows : List TapeRow) : Except String (Option ℚ) :=
  match rows.head?, rows.getLast? with
  | some first, some last =>
    match first.open_ with
    | .null => .ok none
    | .num opened =>
      if rows.length < 2 ∨ opened = 0 then .ok none
      else do
        let close ← last.close.float
        return some (roundTo 2 ((close / opened - 1) * 100))
  | _, _ => .ok none

/-- `_r(sum(vals), 4) if vals else None` -/
def tapeCvd (vals : List ℚ) : Option ℚ := if vals = [] then none else some (roundTo 4 vals.sum)

/-- The change of the open interest over a window. -/
def tapeOi (db : FlowTables) (oiTable : String) (start nowS : Int) : Option ℚ :=
  let vals := ((db.series oiTable).filter fun r =>
    r.timestamp ≥ start ∧ r.timestamp ≤ nowS).filterMap (·.value)
  match vals.head?, vals.getLast? with
  | some first, some last =>
    if vals.length < 2 ∨ first = 0 then none else some (roundTo 3 ((last / first - 1) * 100))
  | _, _ => none

/-- One window of `_tape`. -/
def tapeRead (db : FlowTables) (asset table : String) (fund : Option ℚ) (hours nowS : Int) :
    Except String TapeRead := do
  let start := nowS - hours * 3600
  let rows := windowRows db table start nowS
  let pricePct ← tapePrice rows
  let perpCvd :=
    if rows.length ≥ 2 then tapeCvd (rows.filterMap fun r => delta r.volumeBuy r.volumeSell)
    else none
  let spotCvd := (spot15m.lookup asset).bind fun spotTable =>
    tapeCvd (((db.spot spotTable).filter fun r =>
      r.timestamp ≥ start ∧ r.timestamp ≤ nowS).filterMap fun r => delta r.volumeBuy r.volumeSell)
  let oiPct := (oiTables.lookup asset).bind fun oiTable => tapeOi db oiTable start nowS
  return ⟨hours, pricePct, perpCvd, spotCvd, oiPct, flowLabel perpCvd oiPct (some 0) (some 0), fund⟩

/-- `_tape`: by the labels of the windows. -/
def tape (db : FlowTables) (asset table fundTable : String) (nowS : Int) :
    Except String (List (String × TapeRead)) :=
  [("4h", (4 : Int)), ("24h", 24)].mapM fun window => do
    return (window.1, ← tapeRead db asset table (latestFunding db fundTable nowS) window.2 nowS)

/-! ## The returned bars -/

structure FlowBar where
  time : Int
  perpCvd : Option ℚ
  spotCvd : Option ℚ
  divergence : Option ℚ
  oiClose : Option ℚ
  oiDeltaPct : Option ℚ
  funding : Option ℚ
  basisBp : Option ℚ
  label : Option String

/-- The basis in basis points, where there are both closes. -/
def basisBp : Cell → Cell → Option ℚ
  | .num perp, .num spot => if spot ≠ 0 then some ((perp - spot) / spot * 10_000) else none
  | _, _ => none

/-- The body of the loop over the bars; `prevOi` is the open interest of the bar before. -/
def flowBar (hasSpot : Bool) (thr : FlowThresholds) (prevOi : Option ℚ)
    (item : FlowBucket × Option ℚ × Option ℚ) : Option ℚ × FlowBar :=
  let (b, o, f) := item
  let perpCvd := if b.perpOk then some b.perpCvd else none
  let spotOk := hasSpot ∧ b.n > 0 ∧ b.nSpot = b.n
  let spotCvd := if spotOk then some b.spotCvd else none
  let divergence := do return (← spotCvd) - (← perpCvd)
  let basis := if spotOk then basisBp b.perpClose b.spotClose else none
  let doi := do
    let prev ← prevOi
    if prev = 0 then none
    return ((← o) - prev) / prev * 100
  (o, ⟨b.time, perpCvd, spotCvd, divergence, o, doi, f, basis,
    flowLabel perpCvd doi thr.cvdAbsP60 thr.oiAbsP60⟩)

/-- The returned dictionary. -/
structure Flow where
  asset : String
  tf : String
  source : String
  spotSource : Option String
  oiSource : Option String
  fundingSource : String
  bars : List FlowBar
  lastTime : Option Int
  serverTime : Int
  thresholds : FlowThresholds
  tape : List (String × TapeRead)

/-- `zip(folded, oi, fund)`: the buckets with what `_attach` finds for them. -/
def attachSeries (db : FlowTables) (oiTable : Option String) (fundTable : String)
    (secs fetchStart : Int) (folded : List FlowBucket) : List (FlowBucket × Option ℚ × Option ℚ) :=
  folded.map fun b =>
    (b, oiTable.bind fun table =>
        attach (seriesFrom db table (fetchStart - 86400)) secs (oiCarry secs) b,
      attach (fundingSeries db fundTable (fetchStart - 86400)) secs (fundCarry secs) b)

/-- `flow`, with the cache after it; `oldest` gives the oldest open entry of an asset. -/
def flow (db : FlowTables) (oldest : String → Option Int) (cache : ThrCache) (asset tf : String)
    (bars after nowS : Int) : Except String Flow × ThrCache :=
  let asset := chartAsset asset
  match candleSources.lookup (asset, tf), tfSeconds.lookup tf, defaultBars.lookup tf,
    fundingTables.lookup asset, labelPoolDays.lookup tf, perp15m.lookup asset with
  | some (table, native), some secs, some default, some fundTable, some poolDays, some tapeTable =>
    let bars := if bars ≠ 0 then bars else default
    let spotTable := spotSources.lookup (asset, tf)
    let oiTable := oiTables.lookup asset
    let start := candleWindow (oldest asset) secs bars after nowS
    -- a refresh reads some bars before the first one that it returns
    let fetchStart := if after ≠ 0 then start - secs * (oiCarry secs + 1) else start
    let rows := perpRows db table fetchStart
    let spot := spotTable.map (spotMap db · fetchStart)
    let (thr, cache) :=
      thresholds db cache (thrKey asset tf nowS) oiTable table secs native poolDays nowS
    let result := do
      let thr ← thr
      let tape ← tape db asset tapeTable fundTable nowS
      let folded := foldRows rows spot secs native nowS
      let items := attachSeries db oiTable fundTable secs fetchStart folded
      let out := Pass.out (flowBar spot.isSome thr) none items
      let out := if after ≠ 0 then out.filter fun b => b.time ≥ start else out
      return ⟨asset, tf, table, spotTable, oiTable, fundTable, out, out.getLast?.map (·.time), nowS,
        thr, tape⟩
    (result, cache)
  | _, _, _, _, _, _ => (.error s!"unsupported asset/tf: {asset}/{tf}", cache)

/-! ## The chart's bars -/

section chart

variable {db : FlowTables} {oldest : String → Option Int} {asset tf table : String}
  {bars after nowS secs native default start : Int} {chart : Chart}

theorem barTime_le (hsecs : 0 < secs) (ts : Int) : barTime secs native ts ≤ ts := by
  unfold barTime
  split
  · exact le_rfl
  · exact Grid.floor_le hsecs ts

theorem native_le (hsource : candleSources.lookup (asset, tf) = some (table, native))
    (hsecs : tfSeconds.lookup tf = some secs) : native ≤ secs := by
  have hall : ∀ p ∈ candleSources, ∀ q ∈ tfSeconds, p.1.2 = q.1 → p.2.2 ≤ q.2 := by decide
  obtain ⟨l, l', heq, -⟩ := List.lookup_eq_some_iff.mp hsource
  obtain ⟨k, k', heq', -⟩ := List.lookup_eq_some_iff.mp hsecs
  exact hall ((asset, tf), (table, native)) (heq ▸ List.mem_append_right _ List.mem_cons_self)
    (tf, secs) (heq' ▸ List.mem_append_right _ List.mem_cons_self) rfl

/-- What `candles` makes of the rows of a table from a start on. -/
structure Charted (rows : List TapeRow) (secs native nowS : Int) (bars : List ChartBar) : Prop where
  ascending : bars.Pairwise fun bar bar' => bar.time < bar'.time
  aggregated : ∀ bar ∈ bars, IsAggregate bar
    ((barRows secs native bar.time rows).map (·.toSourceRow))
  mem_times : ∀ t, t ∈ bars.map (·.time) ↔
    (∃ r ∈ rows, barTime secs native r.timestamp = t) ∧ ¬ InProgress secs native nowS t

theorem charted_native {rows : List TapeRow}
    (hrows : rows.Pairwise fun r r' => r.timestamp < r'.timestamp) :
    Charted rows secs secs nowS (rows.map fun r => r.bar r.timestamp) := by
  have htime : ∀ ts, barTime secs secs ts = ts := fun ts => if_pos rfl
  refine ⟨List.pairwise_map.mpr hrows, fun bar hbar => ?_, fun t => ?_⟩
  · obtain ⟨r, hr, rfl⟩ := List.mem_map.mp hbar
    have hsingle : barRows secs secs r.timestamp rows = [r] := by
      simp only [barRows, htime]
      exact Sorted.filter_key_eq hrows hr
    change IsAggregate _ ((barRows secs secs r.timestamp rows).map _)
    rw [hsingle]
    exact .single r.toSourceRow _
  · have hshown : ¬ InProgress secs secs nowS t := fun h => h.1 rfl
    simp [htime, hshown, SourceRow.bar]

theorem charted_coarse {rows : List TapeRow} {out : List ChartBar} (hpos : 0 < secs)
    (hcoarse : native < secs) (H : Bucketed secs nowS (rows.map (·.toSourceRow)) out) :
    Charted rows secs native nowS out := by
  have htime : ∀ ts, barTime secs native ts = Grid.floor secs ts := fun ts => if_neg hcoarse.ne'
  have hrows : ∀ bar ∈ out, bucketRows secs bar.time (rows.map (·.toSourceRow)) =
      (barRows secs native bar.time rows).map (·.toSourceRow) := by
    intro bar hbar
    rw [bucketRows, List.filter_map, barRows]
    congr 1
    refine List.filter_congr fun r _ => ?_
    rw [Function.comp_apply, htime, decide_eq_decide]
    exact (Grid.floor_eq_iff hpos (H.grid bar hbar)).symm
  refine ⟨H.ascending, fun bar hbar => hrows bar hbar ▸ H.whole bar hbar, fun t => ?_⟩
  simp only [htime]
  rw [List.mem_map]
  constructor
  · rintro ⟨bar, hbar, rfl⟩
    obtain ⟨r, hr⟩ := List.exists_mem_of_ne_nil _ (H.whole bar hbar).ne_nil
    obtain ⟨hmem, hfloor⟩ := (ChartWalk.mem_bucketRows_iff hpos (H.grid bar hbar)).mp hr
    obtain ⟨row, hrow, rfl⟩ := List.mem_map.mp hmem
    exact ⟨⟨row, hrow, hfloor⟩, fun h => h.2.not_ge (H.elapsed bar hbar)⟩
  · rintro ⟨⟨r, hr, rfl⟩, hnot⟩
    have hover : Grid.floor secs r.timestamp + secs ≤ nowS :=
      not_lt.mp fun hlt => hnot ⟨hcoarse.ne', hlt⟩
    exact H.covered r.toSourceRow (List.mem_map_of_mem hr) hover

theorem rowsFrom_prices (start : Int) : rowsFrom start (db.prices.rows table) =
    (perpRows db table start).map (·.toSourceRow) := by
  rw [rowsFrom, FlowTables.prices, List.filter_map]
  rfl

theorem candles_charted (hsource : candleSources.lookup (chartAsset asset, tf) =
      some (table, native))
    (hsecs : tfSeconds.lookup tf = some secs) (hdefault : defaultBars.lookup tf = some default)
    (h : candles db.prices oldest asset tf bars after nowS = .ok chart) :
    Charted (perpRows db table (candleWindow (oldest (chartAsset asset)) secs
      (if bars ≠ 0 then bars else default) after nowS)) secs native nowS chart.bars := by
  rcases (native_le hsource hsecs).eq_or_lt with rfl | hcoarse
  · unfold candles at h
    dsimp only at h
    rw [hsource, hsecs, hdefault] at h
    dsimp only at h
    rw [if_pos rfl] at h
    cases h
    change Charted _ _ _ _ ((rowsFrom _ (db.prices.rows table)).map _)
    rw [rowsFrom_prices, List.map_map]
    exact charted_native ((db.perp_sorted table).filter _)
  · have H := (candles_bucketed hsource hsecs hdefault hcoarse h).1
    rw [rowsFrom_prices] at H
    exact charted_coarse (tfSeconds_pos hsecs) hcoarse H

end chart

/-! ## What ends a call -/

/-- No open interest of 0 is followed by another one. -/
def Divides (oi : List (Option ℚ)) : Prop :=
  ∀ p ∈ oi.zip oi.tail, p.1 = some 0 → ∀ cur ∈ p.2, cur = 0

/-- If the price change of a window is computed, its last row has a close. -/
def TapePriced (rows : List TapeRow) : Prop :=
  2 ≤ rows.length → ∀ first ∈ rows.head?, ∀ opened, first.open_ = .num opened → opened ≠ 0 →
    ∀ last ∈ rows.getLast?, last.close ≠ .null

section raises

variable {db : FlowTables} {cache : ThrCache} {key : ThrKey} {oiTable : Option String}
  {asset table fundTable : String} {fund : Option ℚ} {rows : List TapeRow}
  {secs native poolDays hours nowS : Int}

theorem oiMove_ok_iff (p : Option ℚ × Option ℚ) :
    (∃ move, oiMove p = .ok move) ↔ (p.1 = some 0 → ∀ cur ∈ p.2, cur = 0) := by
  obtain ⟨prev, cur⟩ := p
  cases prev with
  | none => exact iff_of_true ⟨none, rfl⟩ fun h => by cases h
  | some prev =>
    cases cur with
    | none => exact iff_of_true ⟨none, rfl⟩ fun _ cur h => by cases h
    | some cur =>
      rw [oiMove]
      split
      · next heq =>
        subst heq
        refine iff_of_true ⟨none, rfl⟩ fun h c hc => ?_
        cases hc
        exact Option.some.inj h
      · next hne =>
        split
        · next hzero =>
          subst hzero
          exact iff_of_false (fun ⟨_, h⟩ => by cases h) fun h => hne (h rfl cur rfl)
        · next hzero => exact iff_of_true ⟨_, rfl⟩ fun h => absurd (Option.some.inj h) hzero

theorem freshThresholds_ok_iff :
    (∃ thr, freshThresholds db oiTable table secs native poolDays nowS = .ok thr) ↔
      Divides (poolOi db oiTable table secs native (nowS - poolDays * 86400) nowS) := by
  rw [freshThresholds, exists_bind_ok]
  exact ⟨fun ⟨moves, h, _⟩ p hp => (oiMove_ok_iff p).mp (exists_mapM_ok.mp ⟨moves, h⟩ p hp),
    fun h => (exists_mapM_ok.mpr fun p hp => (oiMove_ok_iff p).mpr (h p hp)).imp
      fun _ h => ⟨h, _, rfl⟩⟩

theorem thresholds_ok_iff :
    (∃ thr, (thresholds db cache key oiTable table secs native poolDays nowS).1 = .ok thr) ↔
      (cache.get? key).isSome ∨
        Divides (poolOi db oiTable table secs native (nowS - poolDays * 86400) nowS) := by
  rw [← freshThresholds_ok_iff, thresholds]
  cases cache.get? key with
  | some hit => exact iff_of_true ⟨hit, rfl⟩ (.inl rfl)
  | none =>
    rw [Option.isSome_none, or_iff_right Bool.false_ne_true]
    cases freshThresholds db oiTable table secs native poolDays nowS with
    | error e => exact iff_of_false (fun ⟨_, h⟩ => by cases h) fun ⟨_, h⟩ => by cases h
    | ok thr => exact iff_of_true ⟨thr, rfl⟩ ⟨thr, rfl⟩

theorem tapePrice_ok_iff : (∃ pct, tapePrice rows = .ok pct) ↔ TapePriced rows := by
  unfold tapePrice TapePriced
  cases rows.head? with
  | none => exact iff_of_true ⟨none, rfl⟩ fun _ _ h => by cases h
  | some first =>
    cases rows.getLast? with
    | none => exact iff_of_true ⟨none, rfl⟩ fun _ _ _ _ _ _ _ h => by cases h
    | some last =>
      dsimp only
      cases hopen : first.open_ with
      | null =>
        refine iff_of_true ⟨none, rfl⟩ fun _ f hf opened h => ?_
        cases hf
        rw [hopen] at h
        cases h
      | num opened =>
        dsimp only
        split
        · next hnone =>
          refine iff_of_true ⟨none, rfl⟩ fun hlen f hf opened' h hne => ?_
          cases hf
          rw [hopen] at h
          cases h
          exact absurd hnone (not_or.mpr ⟨not_lt.mpr hlen, hne⟩)
        · next hsome =>
          obtain ⟨hlen, hne⟩ := not_or.mp hsome
          cases hclose : last.close with
          | null =>
            refine iff_of_false (fun ⟨_, h⟩ => by cases h) fun h => ?_
            exact h (not_lt.mp hlen) first rfl opened hopen hne last rfl hclose
          | num close =>
            refine iff_of_true ⟨_, rfl⟩ fun _ _ _ _ _ _ l hl h => ?_
            cases hl
            rw [hclose] at h
            cases h

theorem tapeRead_ok_iff : (∃ d, tapeRead db asset table fund hours nowS = .ok d) ↔
    TapePriced (windowRows db table (nowS - hours * 3600) nowS) := by
  rw [← tapePrice_ok_iff, tapeRead, exists_bind_ok]
  exact ⟨fun ⟨pct, h, _⟩ => ⟨pct, h⟩, fun ⟨pct, h⟩ => ⟨pct, h, _, rfl⟩⟩

theorem tape_ok_iff : (∃ out, tape db asset table fundTable nowS = .ok out) ↔
    TapePriced (windowRows db table (nowS - 4 * 3600) nowS) ∧
      TapePriced (windowRows db table (nowS - 24 * 3600) nowS) := by
  have hwindow : ∀ window : String × Int, (∃ item, (do
      return (window.1, ← tapeRead db asset table (latestFunding db fundTable nowS) window.2 nowS) :
        Except String (String × TapeRead)) = .ok item) ↔
      TapePriced (windowRows db table (nowS - window.2 * 3600) nowS) := by
    intro window
    rw [exists_bind_ok, ← @tapeRead_ok_iff db asset table (latestFunding db fundTable nowS)]
    exact ⟨fun ⟨d, h, _⟩ => ⟨d, h⟩, fun ⟨d, h⟩ => ⟨d, h, _, rfl⟩⟩
  rw [tape, exists_mapM_ok]
  simp only [hwindow, List.forall_mem_cons, List.not_mem_nil, false_imp_iff, implies_true, and_true]

end raises

/-! ## Side by side -/

/-- The flow bars and the chart bars of the rows of a table from a start on. -/
structure LinesUp (db : FlowTables) (table : String) (spot : Option (List SpotRow))
    (secs native start : Int) (chart : Chart) (fl : Flow) : Prop where
  times : fl.bars.map (·.time) = chart.bars.map (·.time)
  aggregated : ∀ bar ∈ chart.bars,
    IsAggregate bar ((barRows secs native bar.time (perpRows db table start)).map (·.toSourceRow))
  perpCvd : ∀ bar ∈ fl.bars,
    bar.perpCvd = sumOfAll TapeRow.takerDelta
      (barRows secs native bar.time (perpRows db table start))
  spotCvd : ∀ bar ∈ fl.bars,
    bar.spotCvd = sumOfAll (spotDelta spot) (barRows secs native bar.time (perpRows db table start))

section lines

variable {db : FlowTables} {oldest : String → Option Int} {cache : ThrCache} {thr : FlowThresholds}
  {asset tf table : String} {bars after nowS secs native default start fetchStart time : Int}
  {spot : Option (List SpotRow)} {rows : List TapeRow} {chart : Chart} {fl : Flow}

theorem barRows_perpRows {P : Int → Prop}
    (hcut : ∀ ts, P (barTime secs native ts) ∧ fetchStart ≤ ts ↔ start ≤ ts) (htime : P time) :
    barRows secs native time (perpRows db table fetchStart) =
      barRows secs native time (perpRows db table start) := by
  rw [barRows, barRows, perpRows, perpRows, List.filter_filter, List.filter_filter]
  refine List.filter_congr fun r _ => ?_
  rw [← Bool.decide_and, ← Bool.decide_and, decide_eq_decide]
  refine and_congr_right fun hkey => ?_
  exact (and_iff_right (hkey ▸ htime)).symm.trans (hcut r.timestamp)

theorem cut_iff (hsecs : 0 < secs) (hfetch : fetchStart ≤ start)
    (hstart : secs = native ∨ secs ∣ start) (hafter : after ≠ 0) {ts : Int} :
    (after ≠ 0 → start ≤ barTime secs native ts) ∧ fetchStart ≤ ts ↔ start ≤ ts := by
  rw [imp_iff_right hafter]
  refine ⟨fun h => h.1.trans (barTime_le hsecs ts), fun h => ⟨?_, hfetch.trans h⟩⟩
  unfold barTime
  split
  · exact h
  · next hne =>
    rw [← Grid.floor_of_dvd (hstart.resolve_left hne)]
    exact Grid.floor_mono hsecs h

theorem spotDelta_spotMap {r : TapeRow} (h : fetchStart ≤ r.timestamp) (spotTable : Option String) :
    spotDelta (spotTable.map (spotMap db · fetchStart)) r =
      spotDelta (spotTable.map db.spot) r := by
  cases spotTable with
  | none => rfl
  | some spotTable =>
    have hfind : (spotMap db spotTable fetchStart).find? (fun s => s.timestamp = r.timestamp) =
        (db.spot spotTable).find? fun s => s.timestamp = r.timestamp := by
      rw [spotMap, List.find?_filter]
      congr 1
      funext s
      simp only [decide_eq_true_eq, Bool.decide_and]
      by_cases hs : s.timestamp = r.timestamp
      · simp [hs, h]
      · simp [hs]
    exact congrArg (fun row : Option SpotRow => row.bind fun s =>
      delta s.volumeBuy s.volumeSell) hfind

/-- The values of a bar that is made of a bucket. -/
theorem flowBar_values {b : FlowBucket} (H : b.Sums spot rows) (hrows : rows ≠ [])
    (prev o f : Option ℚ) :
    (flowBar spot.isSome thr prev (b, o, f)).2.perpCvd = sumOfAll TapeRow.takerDelta rows ∧
      (flowBar spot.isSome thr prev (b, o, f)).2.spotCvd = sumOfAll (spotDelta spot) rows := by
  constructor
  · change (if b.perpOk = true then some b.perpCvd else none) = _
    rw [sumOfAll, H.perpOk, H.perpCvd]
  · have hcount : b.nSpot = b.n ↔ (rows.all fun r => (spotDelta spot r).isSome) = true := by
      rw [H.n, H.nSpot, List.length_filterMap_eq_countP, List.countP_eq_length, List.all_eq_true]
    have hpos : b.n > 0 := H.n ▸ List.length_pos_iff.mpr hrows
    have hspot : b.nSpot = b.n → spot.isSome = true := by
      intro h
      obtain ⟨r, hr⟩ := List.exists_mem_of_ne_nil _ hrows
      have hsome := List.all_eq_true.mp (hcount.mp h) r hr
      cases spot with
      | none => exact (Bool.false_ne_true hsome).elim
      | some _ => rfl
    change (if spot.isSome = true ∧ b.n > 0 ∧ b.nSpot = b.n then some b.spotCvd else none) = _
    rw [sumOfAll, H.spotCvd]
    exact if_congr ((and_iff_right_of_imp fun h =>
      hspot h.2).trans ((and_iff_right hpos).trans hcount)) rfl rfl

/-- The tables that go with a source. -/
theorem exists_tables (hsource : candleSources.lookup (asset, tf) = some (table, native)) :
    (∃ fundTable, fundingTables.lookup asset = some fundTable) ∧
    (∃ poolDays, labelPoolDays.lookup tf = some poolDays) ∧
    ∃ tapeTable, perp15m.lookup asset = some tapeTable := by
  have hall : ∀ p ∈ candleSources, (fundingTables.lookup p.1.1).isSome ∧
      (labelPoolDays.lookup p.1.2).isSome ∧ (perp15m.lookup p.1.1).isSome := by decide
  obtain ⟨l, l', heq, -⟩ := List.lookup_eq_some_iff.mp hsource
  simp only [← Option.isSome_iff_exists]
  exact hall ((asset, tf), (table, native)) (heq ▸ List.mem_append_right _ List.mem_cons_self)

/-- A flow is made of the label gates, the tape and the bars of the fold. -/
theorem flow_eq (hsource : candleSources.lookup (chartAsset asset, tf) = some (table, native))
    (hsecs : tfSeconds.lookup tf = some secs) (hdefault : defaultBars.lookup tf = some default)
    (hstart : start = candleWindow (oldest (chartAsset asset)) secs
      (if bars ≠ 0 then bars else default) after nowS)
    (hfetch : fetchStart = if after ≠ 0 then start - secs * (oiCarry secs + 1) else start)
    (hspot : spot = (spotSources.lookup (chartAsset asset, tf)).map (spotMap db · fetchStart)) :
    ∃ fundTable poolDays tapeTable, labelPoolDays.lookup tf = some poolDays ∧
      perp15m.lookup (chartAsset asset) = some tapeTable ∧ ∃ mk : FlowThresholds →
        List (String × TapeRead) → Flow,
      (flow db oldest cache asset tf bars after nowS).1 = (do
        let thr ← (thresholds db cache (thrKey (chartAsset asset) tf nowS)
          (oiTables.lookup (chartAsset asset)) table secs native poolDays nowS).1
        let tape ← tape db (chartAsset asset) tapeTable fundTable nowS
        return mk thr tape) ∧
      ∀ thr tape, (mk thr tape).bars = (Pass.out (flowBar spot.isSome thr) none
        (attachSeries db (oiTables.lookup (chartAsset asset)) fundTable secs fetchStart
          (foldRows (perpRows db table fetchStart) spot secs native nowS))).filter
        fun b => after ≠ 0 → b.time ≥ start := by
  obtain ⟨⟨fundTable, hfund⟩, ⟨poolDays, hpool⟩, tapeTable, htape⟩ := exists_tables hsource
  unfold flow
  dsimp only
  rw [hsource, hsecs, hdefault, hfund, hpool, htape]
  subst hspot hfetch hstart
  refine ⟨fundTable, poolDays, tapeTable, rfl, rfl, _, rfl, fun thr tape => ?_⟩
  dsimp only
  by_cases hafter : after ≠ 0
  · refine (if_pos hafter).trans (List.filter_congr fun b _ => ?_)
    rw [decide_eq_decide, imp_iff_right hafter]
  · refine (if_neg hafter).trans (List.filter_eq_self.mpr fun b _ => ?_).symm
    exact decide_eq_true fun h => absurd h hafter

theorem oiCarry_pos (secs : Int) : 0 < oiCarry secs := lt_of_lt_of_le one_pos (le_max_left ..)

theorem fetchStart_le (hsecs : 0 < secs)
    (hfetch : fetchStart = if after ≠ 0 then start - secs * (oiCarry secs + 1) else start) :
    fetchStart ≤ start := by
  rw [hfetch]
  split
  · exact sub_le_self _ (mul_nonneg hsecs.le (add_pos (oiCarry_pos secs) one_pos).le)
  · exact le_rfl

/-- A row that was fetched and whose bar is shown is a row from the start on. -/
theorem shown_iff (hsecs : 0 < secs) (hafter : secs = native ∨ secs ∣ after)
    (hstart : start = candleWindow (oldest asset) secs bars after nowS)
    (hfetch : fetchStart = if after ≠ 0 then start - secs * (oiCarry secs + 1) else start)
    (ts : Int) : (after ≠ 0 → start ≤ barTime secs native ts) ∧ fetchStart ≤ ts ↔ start ≤ ts := by
  by_cases hne : after ≠ 0
  · rw [candleWindow, if_pos hne] at hstart
    exact cut_iff hsecs (fetchStart_le hsecs hfetch) (hstart ▸ hafter) hne
  · rw [hfetch, if_neg hne]
    exact and_iff_right fun h => absurd h hne

/-- The times of the bars of a flow are those of the fold, less the ones that a refresh cuts off. -/
theorem flow_times {oiTable : Option String} {fundTable : String} {folded : List FlowBucket}
    (hbars : fl.bars = (Pass.out (flowBar spot.isSome thr) none
      (attachSeries db oiTable fundTable secs fetchStart folded)).filter
      fun b => after ≠ 0 → b.time ≥ start) :
    fl.bars.map (·.time) = (folded.map (·.time)).filter fun t => after ≠ 0 → start ≤ t := by
  have hout := Pass.map_out (f := flowBar spot.isSome thr) (s := none) (g := FlowBar.time)
    (h := fun item => item.1.time) (l := attachSeries db oiTable fundTable secs fetchStart folded)
    fun _ _ => rfl
  rw [attachSeries, List.map_map] at hout
  rw [hbars]
  have hfilter := List.filter_map (f := FlowBar.time) (p := fun t => after ≠ 0 → start ≤ t)
    (l := Pass.out (flowBar spot.isSome thr) none
      (attachSeries db oiTable fundTable secs fetchStart folded))
  refine hfilter.symm.trans ?_
  rw [attachSeries, hout]
  rfl

/-- Those times are the ones of the chart. -/
theorem folded_times {folded : List FlowBucket} {out : List ChartBar}
    (hcut : ∀ ts, (after ≠ 0 → start ≤ barTime secs native ts) ∧ fetchStart ≤ ts ↔ start ≤ ts)
    (hfolded : Folded (perpRows db table fetchStart) spot secs native nowS folded)
    (hchart : Charted (perpRows db table start) secs native nowS out) :
    (folded.map (·.time)).filter (fun t => after ≠ 0 → start ≤ t) = out.map (·.time) := by
  refine Sorted.eq_of_mem_iff ((List.pairwise_map.mpr hfolded.ascending).filter _)
    (List.pairwise_map.mpr hchart.ascending) fun t => ?_
  rw [List.mem_filter, decide_eq_true_iff, hfolded.mem_times, hchart.mem_times]
  constructor
  · rintro ⟨⟨⟨r, hr, rfl⟩, hnot⟩, ht⟩
    obtain ⟨hr, hle⟩ := List.mem_filter.mp hr
    have hfrom := (hcut r.timestamp).mp ⟨ht, of_decide_eq_true hle⟩
    exact ⟨⟨r, List.mem_filter.mpr ⟨hr, decide_eq_true hfrom⟩, rfl⟩, hnot⟩
  · rintro ⟨⟨r, hr, rfl⟩, hnot⟩
    obtain ⟨hr, hle⟩ := List.mem_filter.mp hr
    obtain ⟨ht, hfrom⟩ := (hcut r.timestamp).mpr (of_decide_eq_true hle)
    exact ⟨⟨⟨r, List.mem_filter.mpr ⟨hr, decide_eq_true hfrom⟩, rfl⟩, hnot⟩, ht⟩

/-- The values of a bar that is shown are those of its rows from the start on. -/
theorem flow_values {oiTable : Option String} {fundTable : String} {folded : List FlowBucket}
    (hcut : ∀ ts, (after ≠ 0 → start ≤ barTime secs native ts) ∧ fetchStart ≤ ts ↔ start ≤ ts)
    (hfolded : Folded (perpRows db table fetchStart) spot secs native nowS folded)
    (hbars : fl.bars = (Pass.out (flowBar spot.isSome thr) none
      (attachSeries db oiTable fundTable secs fetchStart folded)).filter
      fun b => after ≠ 0 → b.time ≥ start) {bar : FlowBar} (hbar : bar ∈ fl.bars) :
    bar.perpCvd = sumOfAll TapeRow.takerDelta
        (barRows secs native bar.time (perpRows db table start)) ∧
      bar.spotCvd = sumOfAll (spotDelta spot)
        (barRows secs native bar.time (perpRows db table start)) := by
  rw [hbars, List.mem_filter, decide_eq_true_iff] at hbar
  obtain ⟨prev, item, hitem, rfl⟩ := Pass.mem_out hbar.1
  obtain ⟨b, hb, rfl⟩ := List.mem_map.mp hitem
  have hsums := hfolded.sums b hb
  obtain ⟨⟨r, hr, hkey⟩, -⟩ := (hfolded.mem_times b.time).mp (List.mem_map_of_mem hb)
  have hne : barRows secs native b.time (perpRows db table fetchStart) ≠ [] :=
    List.ne_nil_of_mem (List.mem_filter.mpr ⟨hr, decide_eq_true hkey⟩)
  have hshown : after ≠ 0 → start ≤ b.time := hbar.2
  rw [barRows_perpRows (P := fun t => after ≠ 0 → start ≤ t) hcut hshown] at hsums hne
  exact flowBar_values hsums hne prev _ _

/-- A flow and a chart of the same arguments show the same bars, each made of the same rows. A flow
returns if and only if the gates are cached for the day or divide by no open interest of 0, and the
price changes of the tape have a close. A chart returns if none of its rows lacks an extreme. -/
theorem flow_lines_up (hsource : candleSources.lookup (chartAsset asset, tf) = some (table, native))
    (hsecs : tfSeconds.lookup tf = some secs) (hdefault : defaultBars.lookup tf = some default)
    (hafter : secs = native ∨ secs ∣ after)
    (hstart : start = candleWindow (oldest (chartAsset asset)) secs
      (if bars ≠ 0 then bars else default) after nowS) :
    (∀ fl, (flow db oldest cache asset tf bars after nowS).1 = .ok fl →
      ∀ chart, candles db.prices oldest asset tf bars after nowS = .ok chart →
        LinesUp db table ((spotSources.lookup (chartAsset asset, tf)).map db.spot) secs native start
          chart fl) ∧
    (∃ poolDays tapeTable, labelPoolDays.lookup tf = some poolDays ∧
      perp15m.lookup (chartAsset asset) = some tapeTable ∧
      ((∃ fl, (flow db oldest cache asset tf bars after nowS).1 = .ok fl) ↔
        ((cache.get? (thrKey (chartAsset asset) tf nowS)).isSome ∨
          Divides (poolOi db (oiTables.lookup (chartAsset asset)) table secs native
            (nowS - poolDays * 86400) nowS)) ∧
        TapePriced (windowRows db tapeTable (nowS - 4 * 3600) nowS) ∧
        TapePriced (windowRows db tapeTable (nowS - 24 * 3600) nowS))) ∧
    ((secs = native ∨ ∀ r ∈ perpRows db table start, r.Priced) →
      ∃ chart, candles db.prices oldest asset tf bars after nowS = .ok chart) := by
  have hpos := tfSeconds_pos hsecs
  obtain ⟨fetchStart, hfetch⟩ : ∃ fetchStart,
    fetchStart = if after ≠ 0 then start - secs * (oiCarry secs + 1) else start := ⟨_, rfl⟩
  obtain ⟨fundTable, poolDays, tapeTable, hpool, htape, mk, hflow, hmk⟩ :=
    @flow_eq db oldest cache asset tf table bars after nowS secs native default start fetchStart _
      hsource hsecs hdefault hstart hfetch rfl
  refine ⟨fun fl hfl chart hc => ?_, ⟨poolDays, tapeTable, hpool, htape, ?_⟩, fun hpriced => ?_⟩
  · rw [hflow] at hfl
    obtain ⟨thr, -, hfl⟩ := of_bind_ok hfl
    obtain ⟨tape, -, hfl⟩ := of_bind_ok hfl
    cases hfl
    have hbars := hmk thr tape
    have hchart := candles_charted hsource hsecs hdefault hc
    rw [← hstart] at hchart
    have hcut := shown_iff hpos hafter hstart hfetch
    have hfolded : Folded (perpRows db table fetchStart)
        ((spotSources.lookup (chartAsset asset, tf)).map (spotMap db · fetchStart)) secs native
        nowS _ :=
      foldRows_folded hpos ((db.perp_sorted table).filter _)
    refine ⟨(flow_times hbars).trans (folded_times hcut hfolded hchart), hchart.aggregated,
      fun bar hbar => (flow_values hcut hfolded hbars hbar).1, fun bar hbar => ?_⟩
    rw [(flow_values hcut hfolded hbars hbar).2]
    refine sumOfAll_congr fun r hr => spotDelta_spotMap ?_ _
    have hfrom := of_decide_eq_true (List.mem_filter.mp (List.mem_filter.mp hr).1).2
    exact (fetchStart_le hpos hfetch).trans hfrom
  · rw [hflow, exists_bind_ok, ← thresholds_ok_iff,
      ← @tape_ok_iff db (chartAsset asset) tapeTable fundTable]
    constructor
    · rintro ⟨thr, hthr, h⟩
      obtain ⟨tape, htape, -⟩ := exists_bind_ok.mp h
      exact ⟨⟨thr, hthr⟩, tape, htape⟩
    · rintro ⟨⟨thr, hthr⟩, tape, htape⟩
      exact ⟨thr, hthr, exists_bind_ok.mpr ⟨tape, htape, _, rfl⟩⟩
  · refine candles_ok hsource hsecs hdefault (hpriced.imp_right fun hrows => ?_)
    rw [← hstart, rowsFrom_prices]
    exact List.forall_mem_map.mpr hrows

/-- Eight hourly rows; the one of 05:00 has no split, and the spot row of 02:00 is missing. The open
interest of each hour is given, and so are two rows of the tape. -/
def splitTables (oi : ℕ → ℚ) : FlowTables :=
  { FlowTables.empty with
    perp table :=
      if table = "cd_futures_ohlcv" then
        (List.range 8).map fun i : ℕ =>
          ⟨⟨1704067200 + 3600 * i, .num 40, .num 41, .num 39, .num 40⟩, some (10 + i),
            if i = 5 then none else some 7⟩
      else if table = "cd_futures_15m" then
        (List.range 2).map fun i : ℕ =>
          ⟨⟨1704096000 + 900 * i, .num 40, .num 43, .num 39, .num (41 + i)⟩, some 2, some 3⟩
      else []
    spot table :=
      if table = "cd_spot_binance" then
        ((List.range 8).filter (· ≠ 2)).map fun i : ℕ =>
          ⟨1704067200 + 3600 * i, .num 39, some 5, some 4⟩
      else []
    series table :=
      if table = "cd_open_interest" then
        (List.range 8).map fun i : ℕ => ⟨1704067200 + 3600 * i, some (oi i)⟩
      else []
    perp_sorted table := by
      split
      · exact List.pairwise_map.mpr (by decide)
      · split
        · exact List.pairwise_map.mpr (by decide)
        · exact .nil
    spot_sorted table := by
      split
      · exact List.pairwise_map.mpr (by decide)
      · exact .nil
    series_sorted table := by
      split
      · refine List.pairwise_map.mpr (List.pairwise_lt_range.imp fun {i j} h => ?_)
        dsimp only
        omega
      · exact .nil }

/-- A flow of the bars of four hours at 08:30, refreshed from the bar of 00:00 on. -/
def refreshedFlow (oi : ℕ → ℚ) : Except String Flow :=
  (flow (splitTables oi) (fun _ => none) .empty "" "4h" 0 1704067200 1704097800).1

/-- An open interest of 0 at 03:00, the last one of the first bar, ends the call. -/
example : (refreshedFlow fun i => if i = 3 then 0 else 100).map (·.bars.length) =
    .error "ZeroDivisionError" := by decide +kernel

theorem flow_lines_up_refresh : ∃ chart fl,
    candles (splitTables fun _ => 100).prices (fun _ => none) "" "4h" 0 1704067200 1704097800 =
      .ok chart ∧
    refreshedFlow (fun _ => 100) = .ok fl ∧
    fl.bars.map (fun bar => (bar.time, bar.perpCvd, bar.spotCvd)) =
      [(1704067200, some 18, none), (1704081600, none, some 4)] ∧
    fl.tape.map (fun item => (item.1, item.2.pricePct, item.2.perpCvd)) =
      [("4h", some 5, some (-2)), ("24h", some 5, some (-2))] ∧
    LinesUp (splitTables fun _ => 100) "cd_futures_ohlcv"
      (some ((splitTables fun _ => 100).spot "cd_spot_binance")) 14400 3600 1704067200 chart
      fl := by
  have hafter : (14400 : Int) ∣ 1704067200 := by decide
  have hbars : (refreshedFlow fun _ => 100).map
      (fun fl => fl.bars.map fun bar => (bar.time, bar.perpCvd, bar.spotCvd)) =
      .ok [(1704067200, some 18, none), (1704081600, none, some 4)] := by
    decide +kernel
  have htape : (refreshedFlow fun _ => 100).map
      (fun fl => fl.tape.map fun item => (item.1, item.2.pricePct, item.2.perpCvd)) =
      .ok [("4h", some 5, some (-2)), ("24h", some 5, some (-2))] := by
    decide +kernel
  cases hfl : refreshedFlow fun _ => 100 with
  | error e =>
    rw [hfl] at hbars
    cases hbars
  | ok fl =>
    rw [hfl] at hbars htape
    refine ⟨_, fl, rfl, rfl, Except.ok.inj hbars, Except.ok.inj htape, ?_⟩
    exact (@flow_lines_up (splitTables fun _ => 100) (fun _ => none) .empty "" "4h"
      "cd_futures_ohlcv" 0 1704067200 1704097800 14400 3600 1500 1704067200 rfl rfl rfl
      (.inr hafter) rfl).1 fl hfl _ rfl

end lines

end P300
