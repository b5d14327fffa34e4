import P300.Lib.Dict
import Mathlib.Algebra.Order.Ring.Rat
import Mathlib.Data.Int.Cast.Lemmas

/-!
# The Coinbase refresh

`data/sources/coinbase.py`: the feed pulls the hourly candles of an asset up to now. The pull starts
at the trailing window, or one hour after the newest stored bar if that is earlier: a bar that was
caught forming is pulled again only while it lies in the window.
-/

namespace P300

/-- `GRANULARITY` -/
def granularity : Int := 3600

/-- `MAX_CANDLES` -/
def maxCandles : Int := 300

/-- `REFRESH_WINDOW_HOURS` -/
def refreshWindowHours : Int := 6

structure CoinbaseCandle where
  open_ : ℚ
  high : ℚ
  low : ℚ
  close : ℚ
  volume : ℚ
  deriving DecidableEq

/-- The candles of one asset, by the second in which their hour begins: what the API tells of an
hour at a time, and the final one. -/
structure CoinbaseApi where
  candle : Int → Int → CoinbaseCandle
  final : Int → CoinbaseCandle
  candle_eq_final : ∀ h t, h ≤ t → (candle h t = final h ↔ h + granularity ≤ t)

/-- The rows of one asset of `coinbase_spot_1h`. -/
abbrev CoinbaseTable := Dict Int CoinbaseCandle

/-- The hours that begin in `[start, stop]`, ascending. -/
def hoursIn (start stop : Int) : List Int :=
  let first := (start + (granularity - 1)) / granularity
  (List.range (stop / granularity - first + 1).toNat).map fun (i : ℕ) =>
    (first + (i : Int)) * granularity

theorem mem_hoursIn {start stop h : Int} :
    h ∈ hoursIn start stop ↔ granularity ∣ h ∧ start ≤ h ∧ h ≤ stop := by
  simp only [hoursIn, List.mem_map, List.mem_range, granularity]
  constructor
  · rintro ⟨i, hi, rfl⟩
    omega
  · rintro ⟨⟨k, rfl⟩, hlo, hhi⟩
    exact ⟨(k - (start + (3600 - 1)) / 3600).toNat, by omega, by omega⟩

/-- `_last_ts` -/
def lastTs (table : CoinbaseTable) : Option Int := table.keys.max?

/-- A run of `refresh_asset` at `now`, in whole seconds; `fails` tells of each request by its start
whether it raises. -/
structure CoinbaseRun where
  now : Int
  fails : Int → Bool

namespace CoinbaseApi

variable (api : CoinbaseApi)

/-- `fetch_candles`, answered at the time `t`. -/
def fetchCandles (startTs endTs t : Int) : List (Int × CoinbaseCandle) :=
  (hoursIn startTs (min endTs t)).map fun h => (h, api.candle h t)

/-- `_pull`: the pages stored, and the number of rows unless a request raised. -/
def pull (t : Int) (fails : Int → Bool) (endTs cursor : Int) (table : CoinbaseTable) (total : ℕ) :
    CoinbaseTable × Option ℕ :=
  if cursor ≤ endTs then
    let stop := min (cursor + (maxCandles - 1) * granularity) endTs
    if fails cursor then (table, none)
    else
      let rows := api.fetchCandles cursor stop t
      pull t fails endTs (stop + granularity) (table.upsert rows) (total + rows.length)
  else (table, some total)
termination_by (endTs + 1 - cursor).toNat
decreasing_by
  simp only [maxCandles, granularity]
  omega

/-- `start_ts` of `refresh_asset` -/
def startTs (now : Int) (table : CoinbaseTable) : Int :=
  let start := now - refreshWindowHours * granularity
  match lastTs table with
  | some last => min start (last + granularity)
  | none => start

/-- `refresh_asset`, with the `hours` that every caller leaves at the default. -/
def refreshAsset (run : CoinbaseRun) (table : CoinbaseTable) : CoinbaseTable × Option ℕ :=
  api.pull run.now run.fails run.now (startTs run.now table) table 0

/-- The run does not fail. -/
def Succeeds (run : CoinbaseRun) (table : CoinbaseTable) : Prop :=
  (api.refreshAsset run table).2.isSome

/-- The table after some runs. -/
def tableAfter (runs : List CoinbaseRun) (table : CoinbaseTable) : CoinbaseTable :=
  runs.foldl (fun table run => (api.refreshAsset run table).1) table

end CoinbaseApi

/-- Between the oldest and the newest bar no hour is missing, and every bar but the newest is
final. -/
structure Healed (api : CoinbaseApi) (table : CoinbaseTable) : Prop where
  noHole : ∀ a ∈ table.keys, ∀ b ∈ table.keys, ∀ h, granularity ∣ h → a ≤ h → h ≤ b → h ∈ table.keys
  final : ∀ h, (∃ b ∈ table.keys, h < b) → ∀ c, table.get? h = some c → c = api.final h

/-- The hours between the oldest and the newest bar that are missing or not final lie in the
trailing window. -/
def Within (api : CoinbaseApi) (now : Int) (table : CoinbaseTable) : Prop :=
  ∀ a ∈ table.keys, ∀ b ∈ table.keys, ∀ h, granularity ∣ h → a ≤ h → h ≤ b →
    table.get? h ≠ some (api.final h) → now - refreshWindowHours * granularity ≤ h

/-- The bars are of hours that have begun. -/
def HourlyUpTo (now : Int) (table : CoinbaseTable) : Prop :=
  ∀ h ∈ table.keys, granularity ∣ h ∧ h ≤ now

/-! ## A pull -/

section pull

variable {api : CoinbaseApi} {t endTs cursor h : Int} {fails : Int → Bool} {table : CoinbaseTable}
  {total : ℕ}

theorem get?_pageRows (stop : Int) :
    (table.upsert (api.fetchCandles cursor stop t)).get? h =
      if granularity ∣ h ∧ cursor ≤ h ∧ h ≤ min stop t then some (api.candle h t)
        else table.get? h := by
  rw [CoinbaseApi.fetchCandles, Dict.get?_upsert_map]
  simp only [mem_hoursIn]

/-- A row after a pull is the old one or what the API tells of its hour. -/
theorem get?_pull_cases : (api.pull t fails endTs cursor table total).1.get? h = table.get? h ∨
    (granularity ∣ h ∧ cursor ≤ h ∧ h ≤ endTs) ∧
      (api.pull t fails endTs cursor table total).1.get? h = some (api.candle h t) := by
  fun_induction CoinbaseApi.pull api t fails endTs cursor table total with
  | case1 => exact .inl rfl
  | case2 cursor table total hle stop _ rows ih =>
    have hstop : cursor ≤ stop ∧ stop ≤ endTs := by
      simp only [stop, maxCandles, granularity]
      omega
    rcases ih with heq | ⟨⟨hhour, hlo, hhi⟩, hrow⟩
    · rw [heq]
      simp only [rows, get?_pageRows]
      split
      · next hin => exact .inr ⟨⟨hin.1, hin.2.1, (hin.2.2.trans (min_le_left ..)).trans hstop.2⟩,
          rfl⟩
      · exact .inl rfl
    · refine .inr ⟨⟨hhour, ?_, hhi⟩, hrow⟩
      simp only [granularity] at hlo
      omega
  | case3 => exact .inl rfl

/-- A pull that does not fail has all hours of its range, if it begins at an hour or takes one
page. -/
theorem get?_pull (hcursor : granularity ∣ cursor ∨ endTs ≤ cursor + (maxCandles - 1) * granularity)
    (ht : endTs ≤ t) (hok : (api.pull t fails endTs cursor table total).2.isSome) :
    (api.pull t fails endTs cursor table total).1.get? h =
      if granularity ∣ h ∧ cursor ≤ h ∧ h ≤ endTs then some (api.candle h t) else table.get? h := by
  fun_induction CoinbaseApi.pull api t fails endTs cursor table total with
  | case1 => cases hok
  | case2 cursor table total hle stop _ rows ih =>
    have hstop : stop = min (cursor + (maxCandles - 1) * granularity) endTs := rfl
    simp only [maxCandles, granularity] at hcursor hstop ih ⊢
    rw [ih (by omega) hok]
    simp only [rows, get?_pageRows, granularity]
    -- no hour begins between the end of a page and the start of the next one
    split
    · next hlater => exact (if_pos (by omega)).symm
    · next hearlier =>
      refine if_congr ?_ rfl rfl
      omega
  | case3 cursor table total hgt => rw [if_neg (by omega)]

/-- A pull of which no request raises does not fail. -/
theorem isSome_pull (hok : ∀ c, fails c = false) :
    (api.pull t fails endTs cursor table total).2.isSome := by
  fun_induction CoinbaseApi.pull api t fails endTs cursor table total with
  | case1 _ _ _ _ hfails =>
    rw [hok] at hfails
    cases hfails
  | case2 _ _ _ _ _ _ _ ih => exact ih
  | case3 => rfl

end pull

/-! ## A run -/

section run

variable {api : CoinbaseApi} {run : CoinbaseRun} {table : CoinbaseTable} {h : Int}

/-- The pull begins in the window, and not more than an hour after the newest bar. -/
theorem startTs_spec (now : Int) (table : CoinbaseTable) :
    CoinbaseApi.startTs now table ≤ now - refreshWindowHours * granularity ∧
      (∀ last, lastTs table = some last → CoinbaseApi.startTs now table ≤ last + granularity) ∧
      (CoinbaseApi.startTs now table = now - refreshWindowHours * granularity ∨
        ∃ last, lastTs table = some last ∧ CoinbaseApi.startTs now table = last + granularity) := by
  rw [CoinbaseApi.startTs]
  cases lastTs table with
  | none => exact ⟨le_rfl, by simp, .inl rfl⟩
  | some last =>
    refine ⟨min_le_left .., by rintro _ ⟨⟩; exact min_le_right .., ?_⟩
    exact (min_choice _ _).imp_right fun h => ⟨last, rfl, h⟩

theorem le_lastTs {last : Int} (hlast : lastTs table = some last) : ∀ b ∈ table.keys, b ≤ last :=
  (List.max?_eq_some_iff.mp hlast).2

/-- A run that does not fail has every hour from its start on. -/
theorem get?_refreshAsset (H : HourlyUpTo run.now table) (hok : api.Succeeds run table) :
    (api.refreshAsset run table).1.get? h =
      if granularity ∣ h ∧ CoinbaseApi.startTs run.now table ≤ h ∧ h ≤ run.now then
        some (api.candle h run.now) else table.get? h := by
  refine get?_pull ?_ le_rfl hok
  obtain ⟨_, _, hstart | ⟨last, hlast, hstart⟩⟩ := startTs_spec run.now table
  · rw [hstart]
    simp only [refreshWindowHours, maxCandles, granularity]
    omega
  · rw [hstart]
    exact .inl (Int.dvd_add (H last (List.max?_eq_some_iff.mp hlast).1).1 (Int.dvd_refl _))

theorem get?_refreshAsset_cases (api : CoinbaseApi) (run : CoinbaseRun)
    (table : CoinbaseTable) (h : Int) :
    (api.refreshAsset run table).1.get? h = table.get? h ∨
    (granularity ∣ h ∧ h ≤ run.now) ∧
      (api.refreshAsset run table).1.get? h = some (api.candle h run.now) :=
  get?_pull_cases.imp_right fun ⟨⟨hhour, _, hle⟩, hrow⟩ => ⟨⟨hhour, hle⟩, hrow⟩

theorem HourlyUpTo.refreshAsset (H : HourlyUpTo run.now table) :
    HourlyUpTo run.now (api.refreshAsset run table).1 := by
  intro h hmem
  rw [Dict.mem_keys_iff] at hmem
  rcases get?_refreshAsset_cases api run table h with heq | ⟨hin, _⟩
  · rw [heq, ← Dict.mem_keys_iff] at hmem
    exact H h hmem
  · exact hin

theorem mem_keys_refreshAsset_iff (H : HourlyUpTo run.now table) (hok : api.Succeeds run table) :
    h ∈ (api.refreshAsset run table).1.keys ↔
      (granularity ∣ h ∧ CoinbaseApi.startTs run.now table ≤ h ∧ h ≤ run.now) ∨ h ∈ table.keys := by
  rw [Dict.mem_keys_iff, Dict.mem_keys_iff, get?_refreshAsset H hok]
  split
  · next hin => exact iff_of_true rfl (.inl hin)
  · next hout => exact ⟨.inr, fun h => h.resolve_left hout⟩

theorem exists_lastTs {b : Int} (hb : b ∈ table.keys) :
    ∃ last, lastTs table = some last ∧ b ≤ last := by
  cases hlast : lastTs table with
  | none =>
    rw [List.max?_eq_none_iff.mp hlast] at hb
    cases hb
  | some last => exact ⟨last, rfl, le_lastTs hlast b hb⟩

/-- A pull begins in the trailing window, or after what it does not mend. -/
theorem within_of_healed (H : HourlyUpTo run.now table) (hok : api.Succeeds run table)
    (Hhealed : Healed api (api.refreshAsset run table).1) : Within api run.now table := by
  obtain ⟨hwindow, -, hstart⟩ := startTs_spec run.now table
  simp only [refreshWindowHours, granularity] at hwindow hstart
  intro a ha b hb h hhour hah hhb hbad
  by_contra hold
  have hmem := fun h => mem_keys_refreshAsset_iff (h := h) H hok
  simp only [refreshWindowHours, granularity] at hold hhour hmem
  -- the pull begins after `h`, and the present hour is a newer bar
  have hafter : h < CoinbaseApi.startTs run.now table := by
    obtain hstart | ⟨last, hlast', hstart⟩ := hstart
    · omega
    · have hle := le_lastTs hlast' b hb
      omega
  have hpresent : run.now / 3600 * 3600 ∈ (api.refreshAsset run table).1.keys := by
    refine (hmem _).mpr (.inl ⟨Int.dvd_mul_left .., ?_, ?_⟩)
    all_goals omega
  have hstored :=
    Hhealed.noHole a ((hmem a).mpr (.inr ha)) b ((hmem b).mpr (.inr hb)) h hhour hah hhb
  obtain ⟨c, hc⟩ := Option.isSome_iff_exists.mp ((Dict.mem_keys_iff _ _).mp hstored)
  have hfinal := Hhealed.final h ⟨_, hpresent, by omega⟩ c hc
  rw [get?_refreshAsset H hok, if_neg (by omega)] at hc
  exact hbad (hfinal ▸ hc)

/-- An old hour below the start of the pull is final. -/
theorem Within.final_of_lt (Hwithin : Within api run.now table) {a b : Int} (ha : a ∈ table.keys)
    (hb : b ∈ table.keys) (hhour : granularity ∣ h) (hah : a ≤ h) (hhb : h ≤ b)
    (hlt : h < CoinbaseApi.startTs run.now table) :
    table.get? h = some (api.final h) := by
  obtain ⟨hwindow, -, -⟩ := startTs_spec run.now table
  by_contra hbad
  have hin := Hwithin a ha b hb h hhour hah hhb hbad
  omega

theorem healed_of_within (H : HourlyUpTo run.now table) (hok : api.Succeeds run table)
    (Hwithin : Within api run.now table) : Healed api (api.refreshAsset run table).1 := by
  obtain ⟨-, hnewest, -⟩ := startTs_spec run.now table
  have hbegun : HourlyUpTo run.now (api.refreshAsset run table).1 := H.refreshAsset
  constructor
  · intro a ha b hb h hhour hah hhb
    have hhb := hhb.trans (hbegun b hb).2
    rcases lt_or_ge h (CoinbaseApi.startTs run.now table) with hlt | hge
    · have ha : a ∈ table.keys :=
        ((mem_keys_refreshAsset_iff H hok).mp ha).resolve_left fun hin => by omega
      obtain ⟨last, hlast', hle⟩ := exists_lastTs ha
      have hmemLast := (List.max?_eq_some_iff.mp hlast').1
      have hin : h ≤ last := by
        have hnewest := hnewest last hlast'
        have hlastHour := (H last hmemLast).1
        simp only [granularity] at hhour hlastHour hnewest
        omega
      have hrow := Hwithin.final_of_lt ha hmemLast hhour hah hin hlt
      refine (mem_keys_refreshAsset_iff H hok).mpr (.inr ((Dict.mem_keys_iff _ _).mpr ?_))
      rw [hrow]
      rfl
    · exact (mem_keys_refreshAsset_iff H hok).mpr (.inl ⟨hhour, hge, hhb⟩)
  · rintro h ⟨b, hb, hlt⟩ c hc
    have hh := hbegun h ((Dict.mem_keys_iff _ _).mpr (hc ▸ rfl))
    have hb := hbegun b hb
    rw [get?_refreshAsset H hok] at hc
    split at hc
    · cases hc
      refine (api.candle_eq_final h run.now hh.2).mpr ?_
      simp only [granularity] at hh hb ⊢
      omega
    · next hout =>
      have hmem : h ∈ table.keys := (Dict.mem_keys_iff _ _).mpr (hc ▸ rfl)
      have hfinal := Hwithin.final_of_lt hmem hmem hh.1 le_rfl le_rfl
        (not_le.mp fun hge => hout ⟨hh.1, hge, hh.2⟩)
      exact Option.some.inj (hc.symm.trans hfinal)

/-- A hole or an unfinished bar below the start of a pull stays, and all others are mended. -/
theorem healed_refreshAsset_iff (H : HourlyUpTo run.now table) (hok : api.Succeeds run table) :
    Healed api (api.refreshAsset run table).1 ↔ Within api run.now table :=
  ⟨within_of_healed H hok, healed_of_within H hok⟩

end run

/-! ## The feed -/

section feed

variable {api : CoinbaseApi}

theorem tableAfter_take_succ {runs : List CoinbaseRun} {n : ℕ} {run : CoinbaseRun}
    (h : runs[n]? = some run) (table : CoinbaseTable) :
    api.tableAfter (runs.take (n + 1)) table =
      (api.refreshAsset run (api.tableAfter (runs.take n) table)).1 := by
  rw [CoinbaseApi.tableAfter, CoinbaseApi.tableAfter, List.take_add_one, h, Option.toList_some,
    List.foldl_append, List.foldl_cons, List.foldl_nil]

theorem HourlyUpTo.mono {table : CoinbaseTable} {now now' : Int} (H : HourlyUpTo now table)
    (hle : now ≤ now') :
    HourlyUpTo now' table := fun h hmem => ⟨(H h hmem).1, (H h hmem).2.trans hle⟩

/-- Before each run the stored hours have begun. -/
theorem begun_tableAfter {runs : List CoinbaseRun} {table : CoinbaseTable} {t₀ : Int}
    (H : HourlyUpTo t₀ table) (htimes : (t₀ :: runs.map (·.now)).Pairwise (· ≤ ·)) {n : ℕ}
    {run : CoinbaseRun} (hrun : runs[n]? = some run) :
    HourlyUpTo run.now (api.tableAfter (runs.take n) table) := by
  induction runs generalizing n table t₀ with
  | nil => cases hrun
  | cons first runs ih =>
    obtain ⟨hle, htimes⟩ := List.pairwise_cons.mp htimes
    have hfirst : HourlyUpTo first.now table := H.mono (hle first.now List.mem_cons_self)
    cases n with
    | zero =>
      cases hrun
      exact hfirst
    | succ n => exact ih hfirst.refreshAsset htimes hrun

/-- After each run that does not fail the bars are healed, if and only if before each such run all
holes and unfinished bars lie in the trailing window. -/
theorem coinbase_healed_iff {runs : List CoinbaseRun} {table : CoinbaseTable} {t₀ : Int}
    (htable : HourlyUpTo t₀ table) (htimes : (t₀ :: runs.map (·.now)).Pairwise (· ≤ ·)) :
    (∀ n (run : CoinbaseRun), runs[n]? = some run →
      api.Succeeds run (api.tableAfter (runs.take n) table) →
        Healed api (api.tableAfter (runs.take (n + 1)) table)) ↔
    ∀ n (run : CoinbaseRun), runs[n]? = some run →
      api.Succeeds run (api.tableAfter (runs.take n) table) →
        Within api run.now (api.tableAfter (runs.take n) table) := by
  refine forall_congr' fun n => forall_congr' fun run => forall_congr' fun hrun =>
    forall_congr' fun hok => ?_
  rw [tableAfter_take_succ hrun]
  exact healed_refreshAsset_iff (begun_tableAfter htable htimes hrun) hok

end feed

/-! ## An outage -/

/-- Each hour trades one unit a second. -/
def hourlyApi : CoinbaseApi where
  candle h t := ⟨1, 1, 1, 1, (min (t - h) granularity : Int)⟩
  final _ := ⟨1, 1, 1, 1, (granularity : Int)⟩
  candle_eq_final h t _ := by
    simp only [CoinbaseCandle.mk.injEq, true_and, Int.cast_inj, min_eq_right_iff]
    omega

/-- A run half past ten and one at eight in the evening; no request raises. -/
def outage : List CoinbaseRun := [⟨37_800, fun _ => false⟩, ⟨72_000, fun _ => false⟩]

theorem coinbase_healed_iff_outage :
    (∀ n (run : CoinbaseRun), outage[n]? = some run →
      hourlyApi.Succeeds run (hourlyApi.tableAfter (outage.take n) Dict.empty) →
        Healed hourlyApi (hourlyApi.tableAfter (outage.take (n + 1)) Dict.empty)) ↔
    ∀ n (run : CoinbaseRun), outage[n]? = some run →
      hourlyApi.Succeeds run (hourlyApi.tableAfter (outage.take n) Dict.empty) →
        Within hourlyApi run.now (hourlyApi.tableAfter (outage.take n) Dict.empty) :=
  coinbase_healed_iff (show HourlyUpTo 0 Dict.empty from fun _ h =>
    (List.not_mem_nil h).elim) (by decide)

/-- The bar of ten o'clock, half an hour old in the evening, is not final. -/
theorem not_healed_outage :
    HourlyUpTo 0 Dict.empty ∧ (0 :: outage.map (·.now)).Pairwise (· ≤ ·) ∧
      ¬ ∀ n (run : CoinbaseRun), outage[n]? = some run →
        hourlyApi.Succeeds run (hourlyApi.tableAfter (outage.take n) Dict.empty) →
          Healed hourlyApi (hourlyApi.tableAfter (outage.take (n + 1)) Dict.empty) := by
  have hbegun : HourlyUpTo 0 Dict.empty := fun _ h => (List.not_mem_nil h).elim
  have htimes : (0 :: outage.map (·.now)).Pairwise (· ≤ ·) := by decide
  refine ⟨hbegun, htimes, fun H => ?_⟩
  -- the run in the evening begins at eleven o'clock
  have hwithin : Within hourlyApi 72_000 (hourlyApi.tableAfter (outage.take 1) Dict.empty) :=
    (healed_refreshAsset_iff (begun_tableAfter hbegun htimes
      (show outage[1]? = some ⟨72_000, fun _ => false⟩ from rfl)) (isSome_pull fun _ => rfl)).mp
        (H 1 ⟨72_000, fun _ => false⟩ rfl (isSome_pull fun _ => rfl))
  have hten : (hourlyApi.tableAfter (outage.take 1) Dict.empty).get? 36_000 =
      some (hourlyApi.candle 36_000 37_800) :=
    (get?_refreshAsset (show HourlyUpTo 37_800 Dict.empty from hbegun.mono (by decide))
      (isSome_pull fun _ => rfl)).trans (if_pos (by decide))
  have hmem : 36_000 ∈ (hourlyApi.tableAfter (outage.take 1) Dict.empty).keys :=
    (Dict.mem_keys_iff _ _).mpr (hten ▸ rfl)
  have hold := hwithin 36_000 hmem 36_000 hmem 36_000 (by decide) le_rfl le_rfl ?_
  · exact absurd hold (by decide)
  · rw [hten, Ne, Option.some.injEq, hourlyApi.candle_eq_final _ _ (by decide)]
    decide

end P300
