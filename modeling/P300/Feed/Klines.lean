import P300.Lib.Dict
import P300.Lib.Intervals
import Mathlib.Algebra.Order.Ring.Rat

/-!
# The one-minute candle tables

`data/sources/binance.py`: the feed stores the minute candles of the klines endpoint. Its refresh
starts at the newest stored row, its gap filler fetches the windows in which rows are missing.
-/

namespace P300

/-! ## The endpoint -/

/-- `cadence_ms` of the minute tables. -/
def cadenceMs : Int := 60_000

/-- A stored row, less its open time. -/
structure Kline where
  open_ : ℚ
  high : ℚ
  low : ℚ
  close : ℚ
  volume : ℚ
  numTrades : ℕ
  deriving DecidableEq

/-- The klines of one symbol: what the endpoint tells of a minute at a server time, and the final
candle. Both are of the open time in ms. -/
structure KlineApi where
  listed : Int
  kline : Int → Int → Kline
  final : Int → Kline
  listed_pos : 0 < listed
  listed_minute : cadenceMs ∣ listed
  kline_eq_final : ∀ m t, m ≤ t → (kline m t = final m ↔ m + cadenceMs ≤ t)

/-- `n` minutes from `first` on. -/
def minutesFrom (first : Int) (n : ℕ) : List Int :=
  (List.range n).map fun i : ℕ => first + cadenceMs * i

/-- The number of minutes from `first` to `last`. -/
def minuteCount (first last : Int) : ℕ := ((last - first) / cadenceMs + 1).toNat

/-- The first minute that opens at `t` or later. -/
def nextMinute (t : Int) : Int := (t + (cadenceMs - 1)) / cadenceMs * cadenceMs

namespace KlineApi

variable (api : KlineApi)

/-- The minutes of a response: from `startTime` on, and without it the most recent ones. -/
def minutes (startTime : Option Int) (until_ : Int) (limit : ℕ) : List Int :=
  match startTime with
  | some start =>
    let first := nextMinute (max start api.listed)
    minutesFrom first (min limit (minuteCount first until_))
  | none =>
    let n := minuteCount api.listed until_
    minutesFrom (api.listed + cadenceMs * (n - min limit n : ℕ)) (min limit n)

/-- `GET /klines` at the server time `t`. -/
def klines (startTime endTime : Option Int) (limit : ℕ) (t : Int) : List (Int × Kline) :=
  (api.minutes startTime (endTime.elim t (min t)) limit).map fun m => (m, api.kline m t)

section

variable {api : KlineApi} {startTime : Option Int} {until_ m s t : Int} {limit : ℕ}

theorem mem_minutesFrom {first : Int} {n : ℕ} :
    m ∈ minutesFrom first n ↔ ∃ i < n, first + cadenceMs * i = m := by
  simp [minutesFrom]

theorem mem_minutes (h : m ∈ api.minutes startTime until_ limit) :
    cadenceMs ∣ m ∧ api.listed ≤ m ∧ m ≤ until_ ∧ ∀ s ∈ startTime, s ≤ m := by
  have hlisted := api.listed_minute
  cases startTime with
  | none =>
    obtain ⟨i, hi, rfl⟩ := mem_minutesFrom.mp h
    simp only [cadenceMs, minuteCount] at hi hlisted ⊢
    refine ⟨by omega, by omega, by omega, by simp⟩
  | some start =>
    obtain ⟨i, hi, rfl⟩ := mem_minutesFrom.mp h
    simp only [cadenceMs, minuteCount, nextMinute] at hi hlisted ⊢
    refine ⟨by omega, by omega, by omega, fun s hs => ?_⟩
    cases hs
    omega

/-- A request that starts at a minute is answered with it. -/
theorem start_mem_minutes (hs : cadenceMs ∣ s) (hlisted : api.listed ≤ s) (huntil : s ≤ until_)
    (hlimit : 0 < limit) : s ∈ api.minutes (some s) until_ limit := by
  refine mem_minutesFrom.mpr ⟨0, ?_, ?_⟩
  · simp only [cadenceMs, minuteCount, nextMinute] at hs ⊢
    omega
  · simp only [cadenceMs, nextMinute] at hs ⊢
    omega

end

end KlineApi

/-! ## The feed -/

/-- `open_time INTEGER PRIMARY KEY` -/
abbrev KlineTable := Dict Int Kline

/-- `_latest_open_time` -/
def latestOpenTime (table : KlineTable) : Int := table.keys.max?.getD 0

/-- `start_ms` of a refresh: AT the newest row, not after it. -/
def startMs (table : KlineTable) : Option Int :=
  let lastMs := latestOpenTime table
  if lastMs = 0 then none else some lastMs

/-- `fetch_spot_klines_1m`: the request is answered at a server time, or fails and raises. -/
def fetchSpotKlines1m (api : KlineApi) (answer : Option Int) (table : KlineTable) :
    KlineTable × Option ℕ :=
  match answer with
  | none => (table, none)
  | some t =>
    let rows := api.klines (startMs table) none 1000 t
    (table.upsert rows, some rows.length)

/-- `_find_gaps` -/
def findGaps (openTimes : List Int) (cadence nowTs : Int) (sinceFloor : Option Int) :
    List (Int × Int) :=
  let ordered := openTimes.insertionSort (· ≤ ·)
  let gaps := ((ordered.zip ordered.tail).filter fun p => p.2 - p.1 > cadence).map fun p =>
    (p.1 + cadence, p.2 - cadence)
  match openTimes.min?, openTimes.max? with
  | some minTs, some maxTs =>
    let trailing := if nowTs - maxTs > cadence then [(maxTs + cadence, nowTs)] else []
    let leading := match sinceFloor with
      | some floor => if minTs - floor > cadence then [(floor, minTs - cadence)] else []
      | none => []
    Intervals.sorted (gaps ++ trailing ++ leading)
  | _, _ =>
    let giant := match sinceFloor with
      | some floor => if floor < nowTs then [(floor, nowTs)] else []
      | none => []
    Intervals.sorted (gaps ++ giant)

/-- The requests of one gap, page by page. `answer` gives for the `startTime` of a request the
server time at which it is answered; a request that fails has none. -/
def fillGap (api : KlineApi) (answer : Int → Option Int) (gapEnd : Int) :
    ℕ → Int → KlineTable × ℕ → KlineTable × ℕ
  | 0, _, s => s
  | fuel + 1, cursor, (table, total) =>
    if cursor ≤ gapEnd then
      match answer cursor with
      | none => (table, total)
      | some t =>
        let rows := api.klines (some cursor) (some gapEnd) 1000 t
        match rows.getLast? with
        | none => (table, total)
        | some last =>
          let s := (table.upsert rows, total + rows.length)
          let nextCursor := last.1 + cadenceMs
          if nextCursor ≤ cursor then s  -- no forward progress
          else if rows.length < 1000 then s
          else fillGap api answer gapEnd fuel nextCursor s
    else (table, total)

/-- A page moves the cursor, so there are at most this many. -/
def pages (gap : Int × Int) : ℕ := (gap.2 + 1 - gap.1).toNat

/-- `backfill_klines_1m` -/
def backfillKlines1m (api : KlineApi) (answer : Int → Option Int) (nowMs : Int)
    (floorMs : Option Int) (table : KlineTable) : KlineTable × ℕ :=
  (findGaps table.keys cadenceMs nowMs floorMs).foldl
    (fun s gap => fillGap api answer gap.2 (pages gap) gap.1 s) (table, 0)

/-! ## What a run stores -/

section findGaps

variable {openTimes : List Int} {cadence nowTs maxTs : Int} {sinceFloor : Option Int}
  {gap : Int × Int}

theorem max?_ordered (hmax : openTimes.max? = some maxTs) :
    ∀ t ∈ openTimes.insertionSort (· ≤ ·), t ≤ maxTs := fun _ ht =>
  (List.max?_eq_some_iff.mp hmax).2 _ ((List.perm_insertionSort _ _).mem_iff.mp ht)

/-- A gap ends before the newest row or is the trailing one. -/
theorem mem_findGaps (hcadence : 0 < cadence) (hmax : openTimes.max? = some maxTs)
    (h : gap ∈ findGaps openTimes cadence nowTs sinceFloor) :
    gap.2 < maxTs ∨ gap = (maxTs + cadence, nowTs) ∧ nowTs - maxTs > cadence := by
  obtain ⟨minTs, hmin⟩ : ∃ minTs, openTimes.min? = some minTs := by
    rw [← Option.isSome_iff_exists, List.isSome_min?_iff]
    rintro rfl
    cases hmax
  have hle : minTs ≤ maxTs := (List.max?_eq_some_iff.mp hmax).2 _ (List.min?_eq_some_iff.mp hmin).1
  unfold findGaps at h
  simp only [hmin, hmax, Intervals.mem_sorted, List.mem_append] at h
  obtain (h | h) | h := h
  · obtain ⟨p, hp, rfl⟩ := List.mem_map.mp h
    have hts :=
      max?_ordered hmax _ (List.mem_of_mem_tail (List.of_mem_zip (List.mem_filter.mp hp).1).2)
    exact .inl (by dsimp only; omega)
  · split at h
    · next htrailing => exact .inr ⟨List.mem_singleton.mp h, htrailing⟩
    · cases h
  · split at h
    · split at h
      · cases List.mem_singleton.mp h
        exact .inl (by dsimp only; omega)
      · cases h
    · cases h

theorem trailing_mem_findGaps (hmax : openTimes.max? = some maxTs) (h : nowTs - maxTs > cadence) :
    (maxTs + cadence, nowTs) ∈ findGaps openTimes cadence nowTs sinceFloor := by
  obtain ⟨minTs, hmin⟩ : ∃ minTs, openTimes.min? = some minTs := by
    rw [← Option.isSome_iff_exists, List.isSome_min?_iff]
    rintro rfl
    cases hmax
  unfold findGaps
  simp only [hmin, hmax, Intervals.mem_sorted, List.mem_append, if_pos h]
  exact .inl (.inr (List.mem_singleton_self _))

end findGaps

section Fill

variable {api : KlineApi} {answer : Int → Option Int} {gapEnd : Int}

/-- A row that the requests of a gap store. -/
structure Fetched (api : KlineApi) (answer : Int → Option Int) (gap : Int × Int) (m : Int)
    (k : Kline) : Prop where
  isMinute : cadenceMs ∣ m
  listed : api.listed ≤ m
  inGap : gap.1 ≤ m ∧ m ≤ gap.2
  first : (answer gap.1).isSome
  row : ∃ c t, answer c = some t ∧ m ≤ t ∧ k = api.kline m t

/-- The first request of a gap fails, or its page is stored and the next one may be fetched. -/
theorem fillGap_cases (fuel : ℕ) (cursor : Int) (s : KlineTable × ℕ) :
    fillGap api answer gapEnd (fuel + 1) cursor s = s ∨
      ∃ t s', answer cursor = some t ∧ cursor ≤ gapEnd ∧
        s'.1 = s.1.upsert (api.klines (some cursor) (some gapEnd) 1000 t) ∧
        (fillGap api answer gapEnd (fuel + 1) cursor s = s' ∨ ∃ next, cursor < next ∧
          fillGap api answer gapEnd (fuel + 1) cursor s =
            fillGap api answer gapEnd fuel next s') := by
  obtain ⟨table, total⟩ := s
  rw [fillGap]
  split
  · next hcursor =>
    split
    · exact .inl rfl
    · next t ht =>
      dsimp only
      split
      · exact .inl rfl
      · next last _ =>
        refine .inr ⟨t, (table.upsert (api.klines (some cursor) (some gapEnd) 1000 t), total +
          (api.klines (some cursor) (some gapEnd) 1000 t).length), ht, hcursor, rfl, ?_⟩
        split
        · exact .inl rfl
        · next hnext =>
          split
          · exact .inl rfl
          · exact .inr ⟨_, not_le.mp hnext, rfl⟩
  · exact .inl rfl

theorem get?_page {cursor t : Int} (hcursor : answer cursor = some t)
    (table : KlineTable) (m : Int) :
    (table.upsert (api.klines (some cursor) (some gapEnd) 1000 t)).get? m = table.get? m ∨
      ∃ k, (table.upsert (api.klines (some cursor) (some gapEnd) 1000 t)).get? m = some k ∧
        Fetched api answer (cursor, gapEnd) m k := by
  rw [KlineApi.klines, Dict.get?_upsert_map]
  split
  · next hm =>
    obtain ⟨hminute, hlisted, huntil, hstart⟩ := KlineApi.mem_minutes hm
    have huntil := le_min_iff.mp huntil
    exact .inr ⟨_, rfl, hminute, hlisted, ⟨hstart _ rfl, huntil.2⟩, hcursor ▸ rfl,
      ⟨cursor, t, hcursor, huntil.1, rfl⟩⟩
  · exact .inl rfl

/-- A row after the requests of a gap is the old one or a fetched one. -/
theorem get?_fillGap (fuel : ℕ) (cursor : Int) (s : KlineTable × ℕ) (m : Int) :
    (fillGap api answer gapEnd fuel cursor s).1.get? m = s.1.get? m ∨
      ∃ k, (fillGap api answer gapEnd fuel cursor s).1.get? m = some k ∧
        Fetched api answer (cursor, gapEnd) m k := by
  induction fuel generalizing cursor s with
  | zero => exact .inl rfl
  | succ fuel ih =>
    obtain h | ⟨t, s', ht, _, hs', h | ⟨next, hnext, h⟩⟩ := fillGap_cases fuel cursor s
    · exact .inl (by rw [h])
    · rw [h, hs']
      exact get?_page ht _ m
    · rw [h]
      obtain hm | ⟨k, hm, hk⟩ := ih next s'
      · rw [hm, hs']
        exact get?_page ht _ m
      · exact .inr ⟨k, hm, hk.isMinute, hk.listed, ⟨hnext.le.trans hk.inGap.1, hk.inGap.2⟩,
          ht ▸ rfl, hk.row⟩

/-- No row is lost. -/
theorem isSome_fillGap {s : KlineTable × ℕ} {m : Int} (fuel : ℕ) (cursor : Int)
    (h : (s.1.get? m).isSome) :
    ((fillGap api answer gapEnd fuel cursor s).1.get? m).isSome := by
  obtain hm | ⟨k, hm, _⟩ : _ ∨ ∃ k, _ ∧ Fetched api answer (cursor, gapEnd) m k :=
    get?_fillGap fuel cursor s m
  · rwa [hm]
  · rw [hm]
    rfl

/-- A gap that begins at a minute has a row there if its first request is answered later. -/
theorem isSome_fillGap_first {fuel : ℕ} {cursor t : Int} (s : KlineTable × ℕ)
    (hcursor : answer cursor = some t) (hgap : cursor ≤ gapEnd) (ht : cursor ≤ t)
    (hminute : cadenceMs ∣ cursor) (hlisted : api.listed ≤ cursor) :
    ((fillGap api answer gapEnd (fuel + 1) cursor s).1.get? cursor).isSome := by
  have hmem : cursor ∈ api.minutes (some cursor) (min t gapEnd) 1000 :=
    KlineApi.start_mem_minutes hminute hlisted (le_min ht hgap) (by decide)
  have hpage : ((s.1.upsert (api.klines (some cursor) (some gapEnd) 1000 t)).get?
      cursor).isSome := by
    rw [KlineApi.klines, Dict.get?_upsert_map, Option.elim_some, if_pos hmem]
    rfl
  obtain ⟨table, total⟩ := s
  rw [fillGap, if_pos hgap]
  simp only [hcursor]
  split
  · next hnone =>
    rw [List.getLast?_eq_none_iff, KlineApi.klines, List.map_eq_nil_iff] at hnone
    exact absurd hmem (List.eq_nil_iff_forall_not_mem.mp hnone cursor)
  · next last hlast =>
    split
    · exact hpage
    · split
      · exact hpage
      · exact isSome_fillGap fuel _ hpage

/-- More requests than the pages of a gap are not made. -/
theorem fillGap_pages {fuel fuel' : ℕ} {cursor : Int} (s : KlineTable × ℕ)
    (h : pages (cursor, gapEnd) ≤ fuel) (h' : pages (cursor, gapEnd) ≤ fuel') :
    fillGap api answer gapEnd fuel cursor s = fillGap api answer gapEnd fuel' cursor s := by
  dsimp only [pages] at h h'
  induction fuel generalizing fuel' cursor s with
  | zero =>
    cases fuel' with
    | zero => rfl
    | succ fuel' => rw [fillGap, fillGap, if_neg (by omega)]
  | succ fuel ih =>
    cases fuel' with
    | zero => rw [fillGap, fillGap, if_neg (by omega)]
    | succ fuel' =>
      rw [fillGap, fillGap]
      split
      · split
        · rfl
        · dsimp only
          split
          · rfl
          · split
            · rfl
            · split
              · rfl
              · exact ih _ (by omega) (by omega)
      · rfl

end Fill

section backfill

variable {api : KlineApi} {answer : Int → Option Int}

theorem get?_foldl_fillGap (gaps : List (Int × Int)) (s : KlineTable × ℕ) (m : Int) :
    (gaps.foldl (fun s gap => fillGap api answer gap.2 (pages gap) gap.1 s) s).1.get? m =
      s.1.get? m ∨
      ∃ k, (gaps.foldl (fun s gap => fillGap api answer gap.2 (pages gap) gap.1 s) s).1.get? m =
        some k ∧
        ∃ gap ∈ gaps, Fetched api answer gap m k := by
  induction gaps generalizing s with
  | nil => exact .inl rfl
  | cons gap gaps ih =>
    rw [List.foldl_cons]
    obtain h | ⟨k, hk, gap', hgap', hfetched⟩ := ih (fillGap api answer gap.2 (pages gap) gap.1 s)
    · rw [h]
      exact (get?_fillGap (pages gap) gap.1 s m).imp_right fun ⟨k, hk, hfetched⟩ =>
        ⟨k, hk, gap, List.mem_cons_self, hfetched⟩
    · exact .inr ⟨k, hk, gap', List.mem_cons_of_mem _ hgap', hfetched⟩

/-- A row after a run is the old one or lies in a gap. -/
theorem get?_backfill (nowMs : Int) (floorMs : Option Int) (table : KlineTable) (m : Int) :
    (backfillKlines1m api answer nowMs floorMs table).1.get? m = table.get? m ∨
      ∃ k, (backfillKlines1m api answer nowMs floorMs table).1.get? m = some k ∧
        ∃ gap ∈ findGaps table.keys cadenceMs nowMs floorMs, Fetched api answer gap m k :=
  get?_foldl_fillGap _ (table, 0) m

theorem isSome_foldl_fillGap (gaps : List (Int × Int)) {s : KlineTable × ℕ} {m : Int}
    (h : (s.1.get? m).isSome) :
    ((gaps.foldl (fun s gap => fillGap api answer gap.2 (pages gap) gap.1 s) s).1.get?
      m).isSome := by
  induction gaps generalizing s with
  | nil => exact h
  | cons gap gaps ih => exact ih (isSome_fillGap _ _ h)

/-- The first minute of a gap is stored if its request is answered. -/
theorem isSome_backfill_first {nowMs t : Int} {floorMs : Option Int} {table : KlineTable}
    {gap : Int × Int} (hmem : gap ∈ findGaps table.keys cadenceMs nowMs floorMs)
    (hanswer : answer gap.1 = some t) (hgap : gap.1 ≤ gap.2) (ht : gap.1 ≤ t)
    (hminute : cadenceMs ∣ gap.1) (hlisted : api.listed ≤ gap.1) :
    ((backfillKlines1m api answer nowMs floorMs table).1.get? gap.1).isSome := by
  obtain ⟨before, after, hgaps⟩ := List.append_of_mem hmem
  obtain ⟨fuel, hfuel⟩ : ∃ fuel, pages gap = fuel + 1 := by
    refine Nat.exists_eq_succ_of_ne_zero ?_
    rw [pages]
    omega
  rw [backfillKlines1m, hgaps, List.foldl_append, List.foldl_cons, hfuel]
  exact isSome_foldl_fillGap after
    (isSome_fillGap_first _ hanswer hgap ht hminute hlisted)

end backfill

end P300
