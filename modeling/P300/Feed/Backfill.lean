import P300.Feed.Gaps
import P300.Lib.Sorted
import Mathlib.Algebra.Order.BigOperators.Group.List

/-!
# The backfill of gaps

`data/sources/binance.py`, `backfill_klines_1m` and `backfill_klines_interval`: each window of
`_find_gaps` is fetched in pages of at most 1000 rows. The server's rows do not change during a run;
any request may fail, and ends its window then. The `backfillKlines1m` of the feed, which lets the
server's time go on between the requests, is the same loop (`KlineServer.backfillKlines1m_eq`).
-/

namespace P300

open Intervals (Covers)

/-! ## The server -/

/-- The cells of a `/klines` row that are read. -/
structure RawKline where
  /-- milliseconds -/
  openTime : Int
  open_ : ℚ
  high : ℚ
  low : ℚ
  close : ℚ
  volume : ℚ
  quoteVolume : ℚ
  numTrades : ℕ
  takerBuyVolume : ℚ
  takerBuyQuoteVolume : ℚ
  deriving DecidableEq

/-- The rows of one symbol, on a grid of bars that last `cadence` units of `unit` milliseconds. -/
structure KlineServer (unit cadence : Int) where
  rows : List RawKline
  sorted : rows.Pairwise fun r r' => r.openTime < r'.openTime
  base : Int
  grid : ∀ r ∈ rows, ∃ ts, r.openTime = ts * unit ∧ cadence ∣ ts - base

/-- `GET /klines` -/
def KlineServer.klines {unit cadence : Int} (server : KlineServer unit cadence)
    (startTime endTime : Int) (limit : ℕ) : List RawKline :=
  (server.rows.filter fun r => startTime ≤ r.openTime ∧ r.openTime ≤ endTime).take limit

/-! ## The two fetchers -/

/-- What the two backfills do not share: the length of a bar, the unit of the time column in
milliseconds and the columns of a row. -/
structure Fetcher (ρ : Type) where
  unit : Int
  cadence : Int
  unit_pos : 0 < unit
  cadence_pos : 0 < cadence
  row : RawKline → ρ

structure Request where
  /-- `i` of the loop over the gaps, from 1 -/
  gap : ℕ
  startTime : Int
  endTime : Int
  failed : Bool

structure BackfillState (ρ : Type) where
  table : Dict Int ρ
  total : ℕ
  /-- the requests made so far -/
  requests : List Request

section Fetch

variable {ρ : Type} (f : Fetcher ρ) (server : KlineServer f.unit f.cadence) (fails : ℕ → Bool)

/-- The table's key of a row. -/
def Fetcher.ts (r : RawKline) : Int := r.openTime / f.unit

/-- `executemany("INSERT OR REPLACE …")` of a page. -/
def Fetcher.store (rows : List RawKline) (table : Dict Int ρ) : Dict Int ρ :=
  table.upsert (rows.map fun r => (f.ts r, f.row r))

/-- The loop over the pages of gap `i`; `none` if it has not ended within the fuel. `fails n` tells
that request `n` of the run raises. -/
def fetchGap (i : ℕ) (gapEnd : Int) : ℕ → Int → BackfillState ρ → Option (BackfillState ρ)
  | 0, _, _ => none
  | fuel + 1, cursor, s =>
    if cursor ≤ gapEnd then
      let request : Request := ⟨i, cursor * f.unit, gapEnd * f.unit, fails s.requests.length⟩
      let requests := s.requests ++ [request]
      if request.failed then some { s with requests }
      else
        let rows := server.klines request.startTime request.endTime 1000
        match rows.getLast? with
        | none => some { s with requests }
        | some last =>
          let s := ⟨f.store rows s.table, s.total + rows.length, requests⟩
          let nextCursor := f.ts last + f.cadence
          if nextCursor ≤ cursor then some s
          else if rows.length < 1000 then some s
          else fetchGap i gapEnd fuel nextCursor s
    else some s

/-- `for i, (gap_start, gap_end) in enumerate(gaps, start=1)` -/
def fetchGaps (fuel : ℕ) (gaps : List ((Int × Int) × ℕ)) (s : BackfillState ρ) :
    Option (BackfillState ρ) :=
  gaps.foldlM (fun s gap => fetchGap f server fails gap.2 gap.1.2 fuel gap.1.1 s) s

def backfillWith (now : Int) (floor : Option Int) (table : Dict Int ρ) (fuel : ℕ) :
    Option (BackfillState ρ) :=
  fetchGaps f server fails fuel ((findGaps table.keys f.cadence now floor).zipIdx 1) ⟨table, 0, []⟩

end Fetch

/-- `open_time, open, high, low, close, volume, num_trades` -/
def minuteColumns (r : RawKline) : Kline :=
  ⟨r.open_, r.high, r.low, r.close, r.volume, r.numTrades⟩

theorem minute_pos : (0 : Int) < 60_000 := by decide

def minuteFetcher : Fetcher Kline := ⟨1, 60_000, one_pos, minute_pos, minuteColumns⟩

/-- A row of the interval tables, less its timestamp. -/
structure IntervalKline where
  open_ : ℚ
  high : ℚ
  low : ℚ
  close : ℚ
  volume : ℚ
  quoteVolume : ℚ
  volumeBuy : ℚ
  quoteVolumeBuy : ℚ
  volumeSell : ℚ
  quoteVolumeSell : ℚ
  totalTrades : ℕ
  tradesBuy : Option ℕ
  tradesSell : Option ℕ
  deriving DecidableEq

def intervalColumns (r : RawKline) : IntervalKline where
  open_ := r.open_
  high := r.high
  low := r.low
  close := r.close
  volume := r.volume
  quoteVolume := r.quoteVolume
  volumeBuy := r.takerBuyVolume
  quoteVolumeBuy := r.takerBuyQuoteVolume
  volumeSell := r.volume - r.takerBuyVolume
  quoteVolumeSell := r.quoteVolume - r.takerBuyQuoteVolume
  totalTrades := r.numTrades
  tradesBuy := none
  tradesSell := none

def intervalFetcher (cadenceS : Int) (h : 0 < cadenceS) : Fetcher IntervalKline :=
  ⟨1000, cadenceS, by decide, h, intervalColumns⟩

namespace KlineServer

/-- `backfill_klines_1m` -/
def backfillKlines1m (server : KlineServer 1 60_000) (fails : ℕ → Bool) (nowMs : Int)
    (floorMs : Option Int) (table : Dict Int Kline) (fuel : ℕ) : Option (BackfillState Kline) :=
  backfillWith minuteFetcher server fails nowMs floorMs table fuel

/-- `backfill_klines_interval` -/
def backfillKlinesInterval {cadenceS : Int} (h : 0 < cadenceS) (server : KlineServer 1000 cadenceS)
    (fails : ℕ → Bool) (nowS : Int) (floorS : Option Int) (table : Dict Int IntervalKline)
    (fuel : ℕ) :
    Option (BackfillState IntervalKline) :=
  backfillWith (intervalFetcher cadenceS h) server fails nowS floorS table fuel

end KlineServer

/-! ## A page -/

section page

variable {ρ : Type} {f : Fetcher ρ} {server : KlineServer f.unit f.cadence}

/-- The row is stored with the server's values. -/
def Fetcher.Stored (f : Fetcher ρ) (table : Dict Int ρ) (r : RawKline) : Prop :=
  table.get? (f.ts r) = some (f.row r)

theorem KlineServer.ts_mul (server : KlineServer f.unit f.cadence) {r : RawKline}
    (hr : r ∈ server.rows) : f.ts r * f.unit = r.openTime ∧ f.cadence ∣ f.ts r - server.base := by
  obtain ⟨ts, hts, hgrid⟩ := server.grid r hr
  have hkey : f.ts r = ts := by rw [Fetcher.ts, hts, Int.mul_ediv_cancel _ f.unit_pos.ne']
  rw [hkey]
  exact ⟨hts.symm, hgrid⟩

theorem KlineServer.lt_iff (server : KlineServer f.unit f.cadence) {r r' : RawKline}
    (hr : r ∈ server.rows) (hr' : r' ∈ server.rows) :
    r.openTime < r'.openTime ↔ f.ts r < f.ts r' := by
  rw [← (server.ts_mul hr).1, ← (server.ts_mul hr').1]
  exact mul_lt_mul_iff_left₀ f.unit_pos

theorem KlineServer.le_ts_iff (server : KlineServer f.unit f.cadence) {r : RawKline}
    (hr : r ∈ server.rows) (t : Int) :
    (t * f.unit ≤ r.openTime ↔ t ≤ f.ts r) ∧ (r.openTime ≤ t * f.unit ↔ f.ts r ≤ t) := by
  rw [← (server.ts_mul hr).1]
  exact ⟨mul_le_mul_iff_left₀ f.unit_pos, mul_le_mul_iff_left₀ f.unit_pos⟩

variable {start stop : Int} {limit : ℕ} {r : RawKline}

theorem KlineServer.mem_klines (h : r ∈ server.klines (start * f.unit) (stop * f.unit) limit) :
    r ∈ server.rows ∧ start ≤ f.ts r ∧ f.ts r ≤ stop := by
  obtain ⟨hr, hin⟩ := List.mem_filter.mp (List.mem_of_mem_take h)
  have hin := of_decide_eq_true hin
  exact ⟨hr, (server.le_ts_iff hr start).1.mp hin.1, (server.le_ts_iff hr stop).2.mp hin.2⟩

theorem KlineServer.nodup_ts (server : KlineServer f.unit f.cadence) {rows : List RawKline}
    (h : rows.Sublist server.rows) : (rows.map f.ts).Nodup := by
  refine List.pairwise_map.mpr ((server.sorted.sublist h).imp_of_mem fun hr hr' hlt => ?_)
  exact ((server.lt_iff (h.subset hr) (h.subset hr')).mp hlt).ne

theorem KlineServer.klines_sublist (server : KlineServer f.unit f.cadence) (start stop : Int)
    (limit : ℕ) : (server.klines start stop limit).Sublist server.rows :=
  (List.take_sublist ..).trans List.filter_sublist

theorem stored_of_mem {rows : List RawKline} (hrows : rows.Sublist server.rows) (hr : r ∈ rows)
    (table : Dict Int ρ) : f.Stored (f.store rows table) r := by
  refine Dict.get?_upsert_of_mem _ ?_ (List.mem_map_of_mem hr)
  rw [List.map_map]
  exact server.nodup_ts hrows

/-- What a page stores is the server's, and it stores nothing outside its window. -/
theorem get?_store {rows : List RawKline} (hrows : rows.Sublist server.rows) (table : Dict Int ρ)
    (k : Int) : (f.store rows table).get? k = table.get? k ∨
      ∃ r ∈ rows, f.ts r = k ∧ f.Stored (f.store rows table) r := by
  by_cases hk : k ∈ rows.map f.ts
  · obtain ⟨r, hr, rfl⟩ := List.mem_map.mp hk
    exact .inr ⟨r, hr, rfl, stored_of_mem hrows hr table⟩
  · refine .inl (Dict.get?_upsert_of_not_mem _ ?_)
    rwa [List.map_map]

/-- A full page leaves only rows that lie a bar after its last one, and a short page leaves none. -/
theorem mem_page_or_later {last : RawKline} (hr : r ∈ server.rows) (hstart : start ≤ f.ts r)
    (hstop : f.ts r ≤ stop)
    (hlast : (server.klines (start * f.unit) (stop * f.unit) limit).getLast? = some last) :
    r ∈ server.klines (start * f.unit) (stop * f.unit) limit ∨
      limit ≤ (server.klines (start * f.unit) (stop * f.unit) limit).length ∧
        f.ts last + f.cadence ≤ f.ts r := by
  have hmem : r ∈ server.rows.filter fun r =>
      start * f.unit ≤ r.openTime ∧ r.openTime ≤ stop * f.unit :=
    List.mem_filter.mpr ⟨hr, decide_eq_true ⟨(server.le_ts_iff hr start).1.mpr hstart,
      (server.le_ts_iff hr stop).2.mpr hstop⟩⟩
  have hlast := List.mem_of_getLast? hlast
  rcases Sorted.mem_take_or_lt (server.sorted.sublist List.filter_sublist) hlast hmem with h | hlt
  · exact .inl h
  · by_cases hin : r ∈ server.klines (start * f.unit) (stop * f.unit) limit
    · exact .inl hin
    · refine .inr ⟨?_, ?_⟩
      · rw [KlineServer.klines, List.length_take, le_min_iff]
        refine ⟨le_rfl, not_lt.mp fun hshort => hin ?_⟩
        rw [KlineServer.klines, List.take_of_length_le hshort.le]
        exact hmem
      · have hlastRow := (KlineServer.mem_klines hlast).1
        exact Windows.add_step_le (server.ts_mul hlastRow).2 (server.ts_mul hr).2
          ((server.lt_iff hlastRow hr).mp hlt)

/-- A server's row that is stored stays stored when pages are stored. -/
theorem Fetcher.Stored.mono {table table' : Dict Int ρ} (h : f.Stored table r)
    (hr : r ∈ server.rows) (hstep : ∀ k, table'.get? k = table.get? k ∨
      ∃ r ∈ server.rows, f.ts r = k ∧ f.Stored table' r) :
    f.Stored table' r := by
  rcases hstep (f.ts r) with heq | ⟨r', hr', hts, hstored⟩
  · exact heq.trans h
  · rwa [List.inj_on_of_nodup_map (server.nodup_ts (List.Sublist.refl _)) hr' hr hts] at hstored

end page

/-! ## The requests of a gap -/

section gap

variable {ρ : Type} {f : Fetcher ρ} {server : KlineServer f.unit f.cadence} {fails : ℕ → Bool}

/-- What the requests of gap `i` make of the state. -/
structure GapFetched (server : KlineServer f.unit f.cadence) (i : ℕ) (gap : Int × Int)
    (s s' : BackfillState ρ) (made : List Request) : Prop where
  requests : s'.requests = s.requests ++ made
  bound : made.length ≤ pages gap
  number : ∀ request ∈ made, request.gap = i
  started : gap.1 ≤ gap.2 → ∃ request ∈ made, request.startTime = gap.1 * f.unit
  kept : ∀ request ∈ made, request.failed = false →
    ∀ r ∈ server.klines request.startTime request.endTime 1000, f.Stored s'.table r
  complete : (∀ request ∈ made, request.failed = false) →
    ∀ r ∈ server.rows, gap.1 ≤ f.ts r → f.ts r ≤ gap.2 → f.Stored s'.table r
  row : ∀ k, s'.table.get? k = s.table.get? k ∨
    (gap.1 ≤ k ∧ k ≤ gap.2) ∧ ∃ r ∈ server.rows, f.ts r = k ∧ f.Stored s'.table r

namespace GapFetched

variable {i : ℕ} {cursor gapEnd : Int} {s s' : BackfillState ρ} {made : List Request}

theorem mono {gap : Int × Int} {r : RawKline} (H : GapFetched server i gap s s' made)
    (hr : r ∈ server.rows) (h : f.Stored s.table r) : f.Stored s'.table r :=
  h.mono hr fun k => (H.row k).imp_right And.right

/-- A gap without points. -/
theorem nil (h : gapEnd < cursor) : GapFetched server i (cursor, gapEnd) s s [] where
  requests := (List.append_nil _).symm
  bound := Nat.zero_le _
  number := by simp
  started hle := absurd hle (not_le.mpr h)
  kept := by simp
  complete _ r _ hlo hhi := absurd (hlo.trans hhi) (not_le.mpr h)
  row k := .inl rfl

theorem pages_pos (h : cursor ≤ gapEnd) : 0 < pages (cursor, gapEnd) := by
  rw [pages]
  omega

/-- The first request fails. -/
theorem failed {request : Request} (hle : cursor ≤ gapEnd) (hnumber : request.gap = i)
    (hstart : request.startTime = cursor * f.unit) (hfailed : request.failed = true) :
    GapFetched server i (cursor, gapEnd) s { s with requests := s.requests ++ [request] }
    [request] where
  requests := rfl
  bound := pages_pos hle
  number := by simpa using hnumber
  started _ := ⟨request, List.mem_singleton_self _, hstart⟩
  kept := by simp [hfailed]
  complete := by simp [hfailed]
  row k := .inl rfl

/-- The first request is answered with a page, and the rows after it are fetched by the others. -/
theorem page {request : Request} {s₁ : BackfillState ρ} {next : Int} (hle : cursor ≤ gapEnd)
    (hnext : cursor < next) (hnumber : request.gap = i)
    (hstart : request.startTime = cursor * f.unit) (hend : request.endTime = gapEnd * f.unit)
    (hrequests : s₁.requests = s.requests ++ [request])
    (htable : s₁.table = f.store (server.klines request.startTime request.endTime 1000) s.table)
    (hlater : ∀ r ∈ server.rows, cursor ≤ f.ts r → f.ts r ≤ gapEnd →
      r ∈ server.klines request.startTime request.endTime 1000 ∨ next ≤ f.ts r)
    (H : GapFetched server i (next, gapEnd) s₁ s' made) :
    GapFetched server i (cursor, gapEnd) s s' (request :: made) := by
  have hpage : ∀ r ∈ server.klines request.startTime request.endTime 1000, f.Stored s₁.table r := by
    intro r hr
    rw [htable]
    exact stored_of_mem (server.klines_sublist ..) hr _
  have hkept : ∀ r ∈ server.klines request.startTime request.endTime 1000, f.Stored s'.table r :=
    fun r hr => H.mono ((server.klines_sublist ..).subset hr) (hpage r hr)
  refine ⟨?_, ?_, ?_, fun _ => ⟨request, List.mem_cons_self, hstart⟩, ?_, ?_, ?_⟩
  · rw [H.requests, hrequests, List.append_assoc, List.singleton_append]
  · have hbound := H.bound
    dsimp only [pages] at hbound ⊢
    rw [List.length_cons]
    omega
  · exact fun req hreq => (List.mem_cons.mp hreq).elim (fun h => h ▸ hnumber) (H.number req)
  · intro req hreq hok
    rcases List.mem_cons.mp hreq with rfl | hreq
    · exact hkept
    · exact H.kept req hreq hok
  · intro hok r hr hlo hhi
    rcases hlater r hr hlo hhi with hmem | hge
    · exact hkept r hmem
    · exact H.complete (fun req hreq => hok req (List.mem_cons_of_mem _ hreq)) r hr hge hhi
  · intro k
    rcases H.row k with heq | ⟨hin, hrow⟩
    · have hstore :=
        get?_store (server.klines_sublist request.startTime request.endTime 1000) s.table k
      rw [← htable] at hstore
      refine hstore.imp (fun h => heq.trans h) ?_
      rintro ⟨r, hr, rfl, _⟩
      have hrow := hkept r hr
      rw [hstart, hend] at hr
      obtain ⟨hmem, hin⟩ := KlineServer.mem_klines hr
      exact ⟨hin, r, hmem, rfl, hrow⟩
    · exact .inr ⟨⟨hnext.le.trans hin.1, hin.2⟩, hrow⟩

end GapFetched

variable (server fails) in
/-- A gap is done within the fuel of its points. -/
theorem fetchGap_spec {gapEnd : Int} (i : ℕ) {fuel : ℕ} {cursor : Int} (s : BackfillState ρ)
    (hfuel : pages (cursor, gapEnd) < fuel) :
    ∃ s' made, fetchGap f server fails i gapEnd fuel cursor s = some s' ∧
      GapFetched server i (cursor, gapEnd) s s' made := by
  induction fuel generalizing cursor s with
  | zero => omega
  | succ fuel ih =>
    rw [fetchGap]
    split
    · next hle =>
      dsimp only
      split
      · next hfailed => exact ⟨_, _, rfl, .failed hle rfl rfl hfailed⟩
      · split
        · next hnone =>
          -- no row of the server is in the window
          refine ⟨_, _, rfl, .page hle (show cursor < gapEnd + 1 by omega) rfl rfl rfl rfl ?_ ?_
            (.nil (by omega))⟩
          · rw [List.getLast?_eq_none_iff.mp hnone]
            rfl
          · intro r hr hlo hhi
            have hempty := List.getLast?_eq_none_iff.mp hnone
            rw [KlineServer.klines, List.take_eq_nil_iff] at hempty
            refine absurd (List.mem_filter.mpr ⟨hr, decide_eq_true ⟨?_, ?_⟩⟩)
              (List.eq_nil_iff_forall_not_mem.mp (hempty.resolve_left (by decide)) r)
            · exact (server.le_ts_iff hr cursor).1.mpr hlo
            · exact (server.le_ts_iff hr gapEnd).2.mpr hhi
        · next last hlast =>
          have hcursor : cursor ≤ f.ts last :=
            (KlineServer.mem_klines (List.mem_of_getLast? hlast)).2.1
          have hnext : cursor < f.ts last + f.cadence := by
            have := f.cadence_pos
            omega
          rw [if_neg (not_le.mpr hnext)]
          split
          · next hshort =>
            refine ⟨_, _, rfl, .page hle (show cursor < gapEnd + 1 by omega) rfl rfl rfl rfl rfl ?_
              (.nil (by omega))⟩
            intro r hr hlo hhi
            refine .inl ((mem_page_or_later hr hlo hhi hlast).resolve_right fun h => ?_)
            exact absurd hshort (not_lt.mpr h.1)
          · have hpages : pages (f.ts last + f.cadence, gapEnd) < fuel := by
              dsimp only [pages] at hfuel ⊢
              omega
            obtain ⟨s', made, hs', H⟩ := ih ⟨f.store _ s.table, _, _⟩ hpages
            refine ⟨s', _, hs', .page hle hnext rfl rfl rfl rfl rfl ?_ H⟩
            exact fun r hr hlo hhi => (mem_page_or_later hr hlo hhi hlast).imp_right And.right
    · next hgt => exact ⟨s, [], rfl, .nil (not_le.mp hgt)⟩

/-- More fuel changes nothing. -/
theorem fetchGap_mono {i fuel fuel' : ℕ} {gapEnd cursor : Int} {s s' : BackfillState ρ}
    (h : fetchGap f server fails i gapEnd fuel cursor s = some s') (hle : fuel ≤ fuel') :
    fetchGap f server fails i gapEnd fuel' cursor s = some s' := by
  induction fuel generalizing fuel' cursor s with
  | zero => cases h
  | succ fuel ih =>
    obtain ⟨fuel', rfl⟩ := Nat.exists_eq_add_one.mpr (Nat.zero_lt_of_lt hle)
    rw [fetchGap] at h ⊢
    split
    · next hcursor =>
      rw [if_pos hcursor] at h
      dsimp only at h ⊢
      split
      · next hfailed => rwa [if_pos hfailed] at h
      · next hok =>
        rw [if_neg hok] at h
        split
        · next hnone => rwa [hnone] at h
        · next last hlast =>
          rw [hlast] at h
          dsimp only at h
          split
          · next hstuck => rwa [if_pos hstuck] at h
          · next hmoves =>
            rw [if_neg hmoves] at h
            split
            · next hshort => rwa [if_pos hshort] at h
            · next hfull =>
              rw [if_neg hfull] at h
              exact ih h (by omega)
    · next hcursor => rwa [if_neg hcursor] at h

end gap

/-! ## A run -/

section run

variable {ρ : Type} {f : Fetcher ρ} {server : KlineServer f.unit f.cadence} {fails : ℕ → Bool}

/-- What the requests of all the gaps make of the state. -/
structure GapsFetched (server : KlineServer f.unit f.cadence) (gaps : List ((Int × Int) × ℕ))
    (s s' : BackfillState ρ) (made : List Request) : Prop where
  requests : s'.requests = s.requests ++ made
  bound : made.length ≤ (gaps.map fun gap => pages gap.1).sum
  number : ∀ request ∈ made, request.gap ∈ gaps.map Prod.snd
  started : ∀ gap ∈ gaps, gap.1.1 ≤ gap.1.2 →
    ∃ request ∈ made, request.gap = gap.2 ∧ request.startTime = gap.1.1 * f.unit
  kept : ∀ request ∈ made, request.failed = false →
    ∀ r ∈ server.klines request.startTime request.endTime 1000, f.Stored s'.table r
  complete : ∀ gap ∈ gaps, (∀ request ∈ made, request.gap = gap.2 → request.failed = false) →
    ∀ r ∈ server.rows, gap.1.1 ≤ f.ts r → f.ts r ≤ gap.1.2 → f.Stored s'.table r
  row : ∀ k, s'.table.get? k = s.table.get? k ∨
    Covers (gaps.map Prod.fst) k ∧ ∃ r ∈ server.rows, f.ts r = k ∧ f.Stored s'.table r

variable (server fails) in
theorem fetchGaps_spec {fuel : ℕ} {gaps : List ((Int × Int) × ℕ)} (s : BackfillState ρ)
    (hnumbers : (gaps.map Prod.snd).Nodup) (hfuel : ∀ gap ∈ gaps, pages gap.1 < fuel) :
    ∃ s' made, fetchGaps f server fails fuel gaps s = some s' ∧
      GapsFetched server gaps s s' made := by
  induction gaps generalizing s with
  | nil =>
    refine ⟨s, [], rfl, (List.append_nil _).symm, le_rfl, ?_, ?_, ?_, ?_, fun k => .inl rfl⟩
    all_goals simp
  | cons gap gaps ih =>
    obtain ⟨hnew, hnumbers⟩ := List.nodup_cons.mp hnumbers
    obtain ⟨s₁, first, hs₁, H₁⟩ :=
      fetchGap_spec server fails gap.2 s (hfuel gap List.mem_cons_self)
    obtain ⟨s', rest, hs', H⟩ := ih s₁ hnumbers fun g hg => hfuel g (List.mem_cons_of_mem _ hg)
    have hmono : ∀ r ∈ server.rows, f.Stored s₁.table r → f.Stored s'.table r := fun r hr h =>
      h.mono hr fun k => (H.row k).imp_right And.right
    refine ⟨s', first ++ rest, ?_, ?_, ?_, ?_, ?_, ?_, ?_, ?_⟩
    · rw [fetchGaps, List.foldlM_cons, hs₁]
      exact hs'
    · rw [H.requests, H₁.requests, List.append_assoc]
    · have h₁ : first.length ≤ pages gap.1 := H₁.bound
      have h := H.bound
      rw [List.length_append, List.map_cons, List.sum_cons]
      omega
    · intro request hr
      rcases List.mem_append.mp hr with hr | hr
      · rw [H₁.number request hr]
        exact List.mem_cons_self
      · exact List.mem_cons_of_mem _ (H.number request hr)
    · intro g hg hle
      rcases List.mem_cons.mp hg with rfl | hg
      · obtain ⟨request, hr, hstart⟩ := H₁.started hle
        exact ⟨request, List.mem_append_left _ hr, H₁.number request hr, hstart⟩
      · obtain ⟨request, hr, hstart⟩ := H.started g hg hle
        exact ⟨request, List.mem_append_right _ hr, hstart⟩
    · intro request hr hok r hrow
      rcases List.mem_append.mp hr with hr | hr
      · exact hmono r ((server.klines_sublist ..).subset hrow) (H₁.kept request hr hok r hrow)
      · exact H.kept request hr hok r hrow
    · intro g hg hok r hr hlo hhi
      rcases List.mem_cons.mp hg with rfl | hg
      · have hfirst : ∀ request ∈ first, request.failed = false := fun request hreq =>
          hok request (List.mem_append_left _ hreq) (H₁.number request hreq)
        exact hmono r hr (H₁.complete hfirst r hr hlo hhi)
      · exact H.complete g hg (fun request hreq => hok request (List.mem_append_right _ hreq))
          r hr hlo hhi
    · intro k
      rcases H.row k with heq | ⟨⟨g, hg, hin⟩, hrow⟩
      · refine (H₁.row k).imp (fun h => heq.trans h) ?_
        rintro ⟨hin, r, hr, hts, hstored⟩
        exact ⟨⟨gap.1, List.mem_cons_self, hin⟩, r, hr, hts, hmono r hr hstored⟩
      · exact .inr ⟨⟨g, List.mem_cons_of_mem _ hg, hin⟩, hrow⟩

/-- A run of a backfill that found `gaps`, numbered from 1. -/
structure Backfilled (f : Fetcher ρ) (server : KlineServer f.unit f.cadence)
    (gaps : List (Int × Int)) (table : Dict Int ρ) (s : BackfillState ρ) : Prop where
  /-- There are finitely many requests. -/
  bound : s.requests.length ≤ (gaps.map pages).sum
  /-- Each gap is tried, whatever failed before. -/
  started : ∀ gap i, (gap, i) ∈ gaps.zipIdx 1 → gap.1 ≤ gap.2 →
    ∃ request ∈ s.requests, request.gap = i ∧ request.startTime = gap.1 * f.unit
  /-- Each page that was answered is kept. -/
  kept : ∀ request ∈ s.requests, request.failed = false →
    ∀ r ∈ server.klines request.startTime request.endTime 1000, f.Stored s.table r
  /-- A gap without a failure is filled with all rows of the server. -/
  complete : ∀ gap i, (gap, i) ∈ gaps.zipIdx 1 →
    (∀ request ∈ s.requests, request.gap = i → request.failed = false) →
    ∀ r ∈ server.rows, gap.1 * f.unit ≤ r.openTime → r.openTime ≤ gap.2 * f.unit →
      f.Stored s.table r
  /-- Nothing else changes. -/
  frame : ∀ k, ¬ Covers gaps k → s.table.get? k = table.get? k

/-- The requests that were made before stay in the record. -/
theorem fetchGap_requests {i fuel : ℕ} {gapEnd cursor : Int} {s s' : BackfillState ρ}
    (h : fetchGap f server fails i gapEnd fuel cursor s = some s') : s.requests ⊆ s'.requests := by
  obtain ⟨s₁, made, hs₁, H⟩ := fetchGap_spec server fails i s
    (Nat.lt_succ_of_le (le_max_right fuel (pages (cursor, gapEnd))))
  have hsame := fetchGap_mono h (Nat.le_succ_of_le (le_max_left fuel (pages (cursor, gapEnd))))
  rw [hs₁] at hsame
  rw [← Option.some.inj hsame, H.requests]
  exact List.subset_append_left ..

theorem fetchGaps_requests {fuel : ℕ} {gaps : List ((Int × Int) × ℕ)} {s s' : BackfillState ρ}
    (h : fetchGaps f server fails fuel gaps s = some s') : s.requests ⊆ s'.requests := by
  induction gaps generalizing s with
  | nil =>
    cases h
    exact List.Subset.refl _
  | cons gap gaps ih =>
    rw [fetchGaps, List.foldlM_cons] at h
    obtain ⟨s₁, hs₁, h⟩ := Option.bind_eq_some_iff.mp h
    exact List.Subset.trans (fetchGap_requests hs₁) (ih h)

/-- A gap that is not over is asked for. -/
theorem fetchGap_first {i fuel : ℕ} {gapEnd cursor : Int} {s s' : BackfillState ρ}
    (h : fetchGap f server fails i gapEnd (fuel + 1) cursor s = some s') (hle : cursor ≤ gapEnd) :
    ⟨i, cursor * f.unit, gapEnd * f.unit, fails s.requests.length⟩ ∈ s'.requests := by
  have hnew : ∀ request, request ∈ s.requests ++ [request] := fun request =>
    List.mem_append_right _ (List.mem_singleton_self request)
  rw [fetchGap, if_pos hle] at h
  dsimp only at h
  split at h
  · cases h
    exact hnew _
  split at h
  · cases h
    exact hnew _
  split at h
  · cases h
    exact hnew _
  split at h
  · cases h
    exact hnew _
  · exact fetchGap_requests h (hnew _)

theorem fetchGaps_mono {fuel fuel' : ℕ} {gaps : List ((Int × Int) × ℕ)} {s s' : BackfillState ρ}
    (h : fetchGaps f server fails fuel gaps s = some s') (hle : fuel ≤ fuel') :
    fetchGaps f server fails fuel' gaps s = some s' := by
  induction gaps generalizing s with
  | nil => exact h
  | cons gap gaps ih =>
    rw [fetchGaps, List.foldlM_cons] at h ⊢
    obtain ⟨s₁, hs₁, h⟩ := Option.bind_eq_some_iff.mp h
    rw [fetchGap_mono hs₁ hle]
    exact ih h

theorem backfillWith_spec (fails : ℕ → Bool) (now : Int) (floor : Option Int) (table : Dict Int ρ) :
    ∃ enough s, (∀ fuel ≥ enough, backfillWith f server fails now floor table fuel = some s) ∧
      Backfilled f server (findGaps table.keys f.cadence now floor) table s := by
  have hmem : ∀ gap ∈ (findGaps table.keys f.cadence now floor).zipIdx 1,
      pages gap.1 < ((findGaps table.keys f.cadence now floor).map pages).sum + 1 := fun gap hgap =>
    Nat.lt_succ_of_le (List.le_sum_of_mem (List.mem_map_of_mem (List.fst_mem_of_mem_zipIdx hgap)))
  have hnumbers : (((findGaps table.keys f.cadence now floor).zipIdx 1).map Prod.snd).Nodup := by
    rw [List.zipIdx_map_snd]
    exact List.nodup_range'
  obtain ⟨s, made, hs, H⟩ := fetchGaps_spec server fails ⟨table, 0, []⟩
    hnumbers hmem
  have hmade : s.requests = made := by rw [H.requests, List.nil_append]
  refine ⟨_, s, fun fuel hge => fetchGaps_mono hs hge, ?_, ?_, ?_, ?_, ?_⟩
  · have hbound := H.bound
    rwa [← hmade, show (fun gap : (Int × Int) × ℕ => pages gap.1) = pages ∘ Prod.fst from rfl,
      ← List.map_map, List.zipIdx_map_fst] at hbound
  · intro gap i hgap hle
    obtain ⟨request, hr, hstart⟩ := H.started (gap, i) hgap hle
    exact ⟨request, hmade ▸ hr, hstart⟩
  · rw [hmade]
    exact H.kept
  · intro gap i hgap hok r hr hlo hhi
    exact H.complete (gap, i) hgap (hmade ▸ hok) r hr ((server.le_ts_iff hr gap.1).1.mp hlo)
      ((server.le_ts_iff hr gap.2).2.mp hhi)
  · intro k hk
    refine (H.row k).resolve_right fun h => hk ?_
    rw [← List.zipIdx_map_fst 1 (findGaps table.keys f.cadence now floor)]
    exact h.1

end run

/-- Both backfills end, fill each gap whose requests are answered, keep the pages of the others and
change no row outside the gaps. -/
theorem backfill_complete :
    (∀ (server : KlineServer 1 60_000) fails nowMs floorMs table,
      ∃ enough s, (∀ fuel ≥ enough,
        server.backfillKlines1m fails nowMs floorMs table fuel = some s) ∧
        Backfilled minuteFetcher server (findGaps table.keys 60_000 nowMs floorMs) table s) ∧
    ∀ cadenceS (h : 0 < cadenceS) (server : KlineServer 1000 cadenceS) fails nowS floorS table,
      ∃ enough s, (∀ fuel ≥ enough,
        server.backfillKlinesInterval h fails nowS floorS table fuel = some s) ∧
        Backfilled (intervalFetcher cadenceS h) server (findGaps table.keys cadenceS nowS floorS)
          table s := by
  constructor
  · intro server fails nowMs floorMs table
    exact backfillWith_spec (f := minuteFetcher) fails nowMs floorMs table
  · intro cadenceS h server fails nowS floorS table
    exact backfillWith_spec (f := intervalFetcher cadenceS h) fails nowS floorS table

/-- A server with five rows of a quarter. -/
def quarterServer : KlineServer 1000 900 where
  rows := [⟨900_000, 2, 4, 1, 3, 7, 21, 5, 4, 12⟩, ⟨1800_000, 3, 5, 2, 4, 6, 24, 5, 3, 12⟩,
    ⟨2700_000, 4, 4, 3, 3, 1, 3, 2, 1, 3⟩, ⟨3600_000, 3, 3, 2, 2, 2, 5, 2, 0, 0⟩,
    ⟨4500_000, 2, 3, 2, 3, 4, 10, 4, 3, 8⟩]
  sorted := by decide +kernel
  base := 0
  grid := by
    simp only [List.mem_cons, List.not_mem_nil, or_false, forall_eq_or_imp, forall_eq]
    exact ⟨⟨900, by decide, by decide⟩, ⟨1800, by decide, by decide⟩, ⟨2700, by decide, by decide⟩,
      ⟨3600, by decide, by decide⟩, ⟨4500, by decide, by decide⟩⟩

/-- A table that holds the second row. -/
def quarterTable : Dict Int IntervalKline :=
  Dict.empty.upsert [(1800, intervalColumns ⟨1800_000, 3, 5, 2, 4, 6, 24, 5, 3, 12⟩)]

/-- The request of the first gap fails; the second gap is filled. -/
theorem backfill_complete_quarter : ∃ enough s, (∀ fuel ≥ enough,
    quarterServer.backfillKlinesInterval (by decide) (· = 0) 4500 (some 0) quarterTable fuel =
      some s) ∧
    Backfilled (intervalFetcher 900 (by decide)) quarterServer [(0, 900), (2700, 4500)]
      quarterTable s ∧
    s.requests.map (fun request => (request.gap, request.failed)) = [(1, true), (2, false)] ∧
    s.table.keys = [1800, 2700, 3600, 4500] := by
  obtain ⟨enough, s, hs, H⟩ := backfill_complete.2 900 (by decide) quarterServer (· = 0) 4500
    (some 0) quarterTable
  have hgaps : findGaps quarterTable.keys 900 4500 (some 0) = [(0, 900), (2700, 4500)] := by
    decide +kernel
  have hrun : (quarterServer.backfillKlinesInterval (by decide) (· = 0) 4500 (some 0) quarterTable
      2).map (fun s => (s.requests.map fun request => (request.gap, request.failed),
        s.table.keys)) = some ([(1, true), (2, false)], [1800, 2700, 3600, 4500]) := by
    decide +kernel
  obtain ⟨s', hs', he⟩ := Option.map_eq_some_iff.mp hrun
  have hsame : s' = s := Option.some.inj
    ((fetchGaps_mono hs' (le_max_right enough 2)).symm.trans (hs _ (le_max_left enough 2)))
  rw [hsame] at he
  exact ⟨enough, s, hs, hgaps ▸ H, congrArg Prod.fst he, congrArg Prod.snd he⟩

/-! ## The feed's gap filler -/

section feed

variable {api : KlineApi} {server : KlineServer 1 60_000} {fails : ℕ → Bool}
  {answer : Int → Option Int} {listed first last start stop t m : Int}

theorem mem_minutesFrom_minuteCount (hfirst : cadenceMs ∣ first) :
    m ∈ minutesFrom first (minuteCount first last) ↔ cadenceMs ∣ m ∧ first ≤ m ∧ m ≤ last := by
  rw [KlineApi.mem_minutesFrom]
  simp only [cadenceMs, minuteCount] at hfirst ⊢
  constructor
  · rintro ⟨i, hi, rfl⟩
    omega
  · rintro ⟨hm, hle, hlast⟩
    exact ⟨((m - first) / 60_000).toNat, by omega, by omega⟩

theorem minutesFrom_sorted (first : Int) (n : ℕ) : (minutesFrom first n).Pairwise (· < ·) := by
  refine List.pairwise_map.mpr (List.pairwise_lt_range.imp fun h => ?_)
  simp only [cadenceMs]
  omega

theorem minutesFrom_take (first : Int) (n limit : ℕ) :
    (minutesFrom first n).take limit = minutesFrom first (min limit n) := by
  rw [minutesFrom, ← List.map_take, List.take_range, minutesFrom]

/-- The minutes of a window, from the first one on. -/
theorem minutesFrom_filter (hlisted : cadenceMs ∣ listed) :
    (minutesFrom listed (minuteCount listed t)).filter (fun m => start ≤ m ∧ m ≤ stop) =
      minutesFrom (nextMinute (max start listed))
        (minuteCount (nextMinute (max start listed)) (min t stop)) := by
  refine Sorted.eq_of_mem_iff ((minutesFrom_sorted ..).filter _) (minutesFrom_sorted ..)
    fun m => ?_
  have hnext : cadenceMs ∣ nextMinute (max start listed) := Int.dvd_mul_left ..
  rw [List.mem_filter, mem_minutesFrom_minuteCount hlisted, mem_minutesFrom_minuteCount hnext,
    decide_eq_true_iff]
  simp only [cadenceMs, nextMinute] at hlisted ⊢
  omega

/-- What is stored of a row, with its key. -/
def minuteEntry (r : RawKline) : Int × Kline := (r.openTime, minuteColumns r)

/-- The server has the minutes that the endpoint tells at the server time `t`. -/
def KlineServer.Serves (server : KlineServer 1 60_000) (api : KlineApi) (t : Int) : Prop :=
  server.rows.map minuteEntry =
    (minutesFrom api.listed (minuteCount api.listed t)).map fun m => (m, api.kline m t)

/-- A request is answered with the same page. -/
theorem KlineServer.Serves.klines (h : server.Serves api t) (start stop : Int) (limit : ℕ) :
    (server.klines start stop limit).map minuteEntry =
      api.klines (some start) (some stop) limit t := by
  have hfilter : (server.rows.filter fun r => start ≤ r.openTime ∧ r.openTime ≤ stop).map
      minuteEntry = ((minutesFrom api.listed (minuteCount api.listed t)).filter fun m =>
        start ≤ m ∧ m ≤ stop).map fun m => (m, api.kline m t) := by
    have hcomm := congrArg (List.filter fun e => decide (start ≤ e.1 ∧ e.1 ≤ stop)) h
    rw [List.filter_map, List.filter_map] at hcomm
    exact hcomm
  rw [KlineServer.klines, List.map_take, hfilter, minutesFrom_filter api.listed_minute,
    ← List.map_take, minutesFrom_take]
  rfl

theorem store_eq_upsert (rows : List RawKline) (table : Dict Int Kline) :
    minuteFetcher.store rows table = table.upsert (rows.map minuteEntry) := by
  have hkey : ∀ r, minuteFetcher.ts r = r.openTime := fun r => Int.ediv_one _
  simp only [Fetcher.store, hkey]
  rfl

/-- The pages of a gap, fetched by either loop. -/
theorem fillGap_eq {server : KlineServer minuteFetcher.unit minuteFetcher.cadence}
    (hserves : KlineServer.Serves server api t) {i fuel fuel' : ℕ} {gapEnd cursor : Int}
    {s s' : BackfillState Kline}
    (h : fetchGap minuteFetcher server fails i gapEnd fuel cursor s = some s')
    (hanswer : ∀ request ∈ s'.requests,
      answer request.startTime = if request.failed then none else some t)
    (hfuel : pages (cursor, gapEnd) ≤ fuel') :
    fillGap api answer gapEnd fuel' cursor (s.table, s.total) = (s'.table, s'.total) := by
  induction fuel generalizing cursor s fuel' with
  | zero => cases h
  | succ fuel ih =>
    rcases lt_or_ge gapEnd cursor with hlt | hle
    · rw [fetchGap, if_neg (not_le.mpr hlt)] at h
      cases h
      cases fuel' with
      | zero => rfl
      | succ fuel' => rw [fillGap, if_neg (not_le.mpr hlt)]
    obtain ⟨fuel', rfl⟩ : ∃ k, fuel' = k + 1 :=
      Nat.exists_eq_add_one.mpr (by simp only [pages] at hfuel; omega)
    have hunit : ∀ x, x * minuteFetcher.unit = x := Int.mul_one
    have hasked : answer cursor = if fails s.requests.length then none else some t := by
      have hasked := hanswer _ (fetchGap_first h hle)
      rwa [hunit] at hasked
    have hlast : (api.klines (some cursor) (some gapEnd) 1000 t).getLast? =
        (server.klines cursor gapEnd 1000).getLast?.map minuteEntry := by
      rw [← hserves.klines]
      exact List.getLast?_map
    have hlength : (api.klines (some cursor) (some gapEnd) 1000 t).length =
        (server.klines cursor gapEnd 1000).length := by
      rw [← hserves.klines]
      exact List.length_map _
    have hstore : s.table.upsert (api.klines (some cursor) (some gapEnd) 1000 t) =
        minuteFetcher.store (server.klines cursor gapEnd 1000) s.table := by
      rw [← hserves.klines, store_eq_upsert]
      rfl
    rw [fetchGap, if_pos hle] at h
    simp only [hunit] at h
    rw [fillGap, if_pos hle, hasked]
    split at h
    · next hfailed =>
      cases h
      rw [if_pos hfailed]
    · next hok =>
      rw [if_neg hok]
      dsimp only
      rw [hlast, hlength, hstore]
      cases hrow : (server.klines cursor gapEnd 1000).getLast? with
      | none =>
        rw [hrow] at h
        cases h
        rfl
      | some last =>
        rw [hrow] at h
        have hnext : minuteFetcher.ts last + minuteFetcher.cadence = last.openTime + cadenceMs :=
          congrArg (· + cadenceMs) (Int.ediv_one _)
        simp only [hnext] at h
        simp only [Option.map_some, minuteEntry]
        split at h
        · next hback =>
          cases h
          rw [if_pos hback]
        · next hforth =>
          rw [if_neg hforth]
          split at h
          · next hfew =>
            cases h
            rw [if_pos hfew]
          · next hmany =>
            rw [if_neg hmany]
            exact ih h (by simp only [pages] at hfuel ⊢; omega)

theorem fillGaps_eq {server : KlineServer minuteFetcher.unit minuteFetcher.cadence}
    (hserves : KlineServer.Serves server api t) {fuel : ℕ} {gaps : List ((Int × Int) × ℕ)}
    {s s' : BackfillState Kline} (h : fetchGaps minuteFetcher server fails fuel gaps s = some s')
    (hanswer : ∀ request ∈ s'.requests,
      answer request.startTime = if request.failed then none else some t) :
    (gaps.map Prod.fst).foldl (fun s gap => fillGap api answer gap.2 (pages gap) gap.1 s)
      (s.table, s.total) = (s'.table, s'.total) := by
  induction gaps generalizing s with
  | nil =>
    cases h
    rfl
  | cons gap gaps ih =>
    rw [fetchGaps, List.foldlM_cons] at h
    obtain ⟨s₁, hs₁, h⟩ := Option.bind_eq_some_iff.mp h
    have hkept : s₁.requests ⊆ s'.requests := fetchGaps_requests h
    rw [List.map_cons, List.foldl_cons, fillGap_eq hserves hs₁
      (fun request hr => hanswer request (hkept hr)) le_rfl]
    exact ih h

/-- The backfill is the one of the feed's model, where the endpoint answers from the rows of the
server at one time. -/
theorem KlineServer.backfillKlines1m_eq (hserves : server.Serves api t) {fuel : ℕ} {nowMs : Int}
    {floorMs : Option Int} {table : Dict Int Kline} {s : BackfillState Kline}
    (h : server.backfillKlines1m fails nowMs floorMs table fuel = some s)
    (hanswer : ∀ request ∈ s.requests,
      answer request.startTime = if request.failed then none else some t) :
    P300.backfillKlines1m api answer nowMs floorMs table = (s.table, s.total) := by
  have hfold := fillGaps_eq (s := ⟨table, 0, []⟩) hserves h hanswer
  rwa [List.zipIdx_map_fst] at hfold

end feed

end P300
