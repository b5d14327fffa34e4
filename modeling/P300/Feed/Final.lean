import Mathlib.Algebra.Ring.Divisibility.Basic
import P300.Feed.Klines
import P300.Lib.Runs

/-!
# Final candles

The newest stored row may still be forming when it is stored. The refresh fetches it again with its
successors; the gap filler starts one minute after it and leaves it as it is. The rows before the
newest one are the final candles in a run of the feed exactly when no gap filler passes a forming
row.
-/

namespace P300

/-- Every row but the newest is the final candle of its minute. -/
def Settled (api : KlineApi) (table : KlineTable) : Prop :=
  ∀ m k, table.get? m = some k → ∀ m', (table.get? m').isSome → m < m' → k = api.final m

/-- The rows are of minutes that have begun. -/
def Begun (api : KlineApi) (clock : Int) (table : KlineTable) : Prop :=
  ∀ m, (table.get? m).isSome → cadenceMs ∣ m ∧ api.listed ≤ m ∧ m ≤ clock

/-- The rows are the final candles of minutes that have ended. -/
def AllFinal (api : KlineApi) (clock : Int) (table : KlineTable) : Prop :=
  ∀ m k, table.get? m = some k →
    cadenceMs ∣ m ∧ api.listed ≤ m ∧ m + cadenceMs ≤ clock ∧ k = api.final m

/-! ## Runs of the feed -/

/-- A run of the feed's two writers, with the times at which it starts and is done. -/
inductive FeedRun
  | backfill (start done : Int) (floorMs : Option Int) (answer : Int → Option Int)
  | refresh (start done : Int) (answer : Option Int)

namespace FeedRun

def start : FeedRun → Int
  | backfill start _ _ _ => start
  | refresh start _ _ => start

def done : FeedRun → Int
  | backfill _ done _ _ => done
  | refresh _ done _ => done

/-- A request of the run is answered at `t`. -/
def Answers : FeedRun → Int → Prop
  | backfill _ _ _ answer, t => ∃ c, answer c = some t
  | refresh _ _ answer, t => answer = some t

def run (api : KlineApi) : FeedRun → KlineTable → KlineTable
  | backfill start _ floorMs answer, table => (backfillKlines1m api answer start floorMs table).1
  | refresh _ _ answer, table => (fetchSpotKlines1m api answer table).1

/-- A run that starts at `clock` or later and gets its answers while it is running. -/
structure Timed (clock : Int) (r : FeedRun) : Prop where
  start : clock ≤ r.start
  done : r.start ≤ r.done
  answers : ∀ t, r.Answers t → r.start ≤ t ∧ t ≤ r.done

/-- A gap filler that starts more than a minute after the newest row finds this row final, or the
first request after it fails. -/
def Passes (api : KlineApi) : FeedRun → KlineTable → Prop
  | backfill start _ _ answer, table => ∀ m k, table.keys.max? = some m → table.get? m = some k →
      k = api.final m ∨ start - m ≤ cadenceMs ∨ answer (m + cadenceMs) = none
  | refresh .., _ => True

end FeedRun

/-- The runs follow each other. -/
def InOrder : Int → List FeedRun → Prop
  | _, [] => True
  | clock, r :: rs => r.Timed clock ∧ InOrder r.done rs

/-- The table after the first `n` runs. -/
def tableAfter (api : KlineApi) (table : KlineTable) (rs : List FeedRun) (n : ℕ) : KlineTable :=
  (rs.take n).foldl (fun table r => r.run api table) table

/-! ## One run -/

section Step

variable {api : KlineApi} {clock : Int} {table : KlineTable}

theorem newest_iff {m : Int} :
    table.keys.max? = some m ↔ (table.get? m).isSome ∧ ∀ m', (table.get? m').isSome → m' ≤ m := by
  rw [List.max?_eq_some_iff]
  simp only [Dict.mem_keys_iff]

theorem newest_of_isSome {m : Int} (h : (table.get? m).isSome) :
    ∃ newest, table.keys.max? = some newest := by
  rw [← Option.isSome_iff_exists]
  exact List.isSome_max?_of_mem ((Dict.mem_keys_iff table m).mpr h)

theorem AllFinal.begun (h : AllFinal api clock table) : Begun api clock table := by
  intro m hm
  obtain ⟨k, hk⟩ := Option.isSome_iff_exists.mp hm
  obtain ⟨hminute, hlisted, hended, _⟩ := h m k hk
  exact ⟨hminute, hlisted, by simp only [cadenceMs] at hended; omega⟩

theorem AllFinal.settled (h : AllFinal api clock table) : Settled api table :=
  fun m k hk _ _ _ => (h m k hk).2.2.2

theorem Begun.mono {clock' : Int} (h : Begun api clock table) (hclock : clock ≤ clock') :
    Begun api clock' table := fun m hm =>
  ⟨(h m hm).1, (h m hm).2.1, (h m hm).2.2.trans hclock⟩

/-- A minute before another one has ended when this one begins. -/
theorem ended_of_lt {m m' : Int} (hm : cadenceMs ∣ m) (hm' : cadenceMs ∣ m') (hlt : m < m') :
    m + cadenceMs ≤ m' := by
  simp only [cadenceMs] at hm hm' ⊢
  omega

/-- A row told when the minute has ended is final. -/
theorem kline_final {m m' t : Int} (hm : cadenceMs ∣ m) (hm' : cadenceMs ∣ m') (hlt : m < m')
    (ht : m' ≤ t) : api.kline m t = api.final m :=
  (api.kline_eq_final m t (hlt.le.trans ht)).mpr ((ended_of_lt hm hm' hlt).trans ht)

/-! ### The refresh -/

/-- A row after an answered refresh is the old one or of the response. -/
theorem get?_refresh {t : Int} (table : KlineTable) (m : Int) :
    (fetchSpotKlines1m api (some t) table).1.get? m =
      if m ∈ api.minutes (startMs table) t 1000 then some (api.kline m t) else table.get? m :=
  Dict.get?_upsert_map ..

/-- The refresh fetches the newest row again. -/
theorem newest_mem_minutes {newest t : Int} (hnewest : table.keys.max? = some newest)
    (hbegun : Begun api clock table) (ht : clock ≤ t) :
    newest ∈ api.minutes (startMs table) t 1000 := by
  obtain ⟨hminute, hlisted, hclock⟩ := hbegun newest (newest_iff.mp hnewest).1
  have hpos : newest ≠ 0 := (lt_of_lt_of_le api.listed_pos hlisted).ne'
  simp only [startMs, latestOpenTime, hnewest, Option.getD_some, if_neg hpos]
  exact KlineApi.start_mem_minutes hminute hlisted (hclock.trans ht) (by decide)

theorem begun_refresh {t : Int} (hbegun : Begun api clock table) (ht : clock ≤ t) :
    Begun api t (fetchSpotKlines1m api (some t) table).1 := by
  intro m hm
  rw [get?_refresh] at hm
  split at hm
  · next hmem =>
    obtain ⟨hminute, hlisted, huntil, _⟩ := KlineApi.mem_minutes hmem
    exact ⟨hminute, hlisted, huntil⟩
  · exact hbegun.mono ht m hm

theorem settled_refresh {t : Int} (hbegun : Begun api clock table) (ht : clock ≤ t)
    (hsettled : Settled api table) : Settled api (fetchSpotKlines1m api (some t) table).1 := by
  intro m k hk m' hm' hlt
  obtain ⟨hminute, _, _⟩ := begun_refresh hbegun ht m (hk ▸ rfl)
  obtain ⟨hminute', _, hclock'⟩ := begun_refresh hbegun ht m' hm'
  rw [get?_refresh] at hk
  split at hk
  · cases hk
    exact kline_final hminute hminute' hlt hclock'
  · next hmem =>
    -- an old row that was not fetched again is not the newest old one
    obtain ⟨newest, hnewest⟩ := newest_of_isSome (hk ▸ rfl : (table.get? m).isSome)
    obtain ⟨hold, hle⟩ := newest_iff.mp hnewest
    have hne : m ≠ newest := fun h => hmem (h ▸ newest_mem_minutes hnewest hbegun ht)
    exact hsettled m k hk newest hold (lt_of_le_of_ne (hle m (hk ▸ rfl)) hne)

/-! ### The gap filler -/

section backfill

variable {start done : Int} {floorMs : Option Int} {answer : Int → Option Int}

theorem begun_backfill (hbegun : Begun api clock table) (hstart : clock ≤ done)
    (hanswers : ∀ c t, answer c = some t → start ≤ t ∧ t ≤ done) :
    Begun api done (backfillKlines1m api answer start floorMs table).1 := by
  intro m hm
  obtain h | ⟨k, _, gap, _, hfetched⟩ := get?_backfill start floorMs table m
  · exact hbegun.mono hstart m (h ▸ hm)
  · obtain ⟨c, t, hc, hmt, _⟩ := hfetched.row
    exact ⟨hfetched.isMinute, hfetched.listed, hmt.trans (hanswers c t hc).2⟩

/-- A gap ends at the start of the run at the latest. -/
theorem gap_le_start (hbegun : Begun api clock table) (hstart : clock ≤ start) {gap : Int × Int}
    (hgap : gap ∈ findGaps table.keys cadenceMs start floorMs) : gap.2 ≤ start := by
  cases hmax : table.keys.max? with
  | none =>
    have hnil := List.max?_eq_none_iff.mp hmax
    rw [hnil] at hgap
    unfold findGaps at hgap
    cases floorMs with
    | none => simp [Intervals.mem_sorted] at hgap
    | some floor =>
      simp only [Intervals.mem_sorted, List.min?_nil, List.mem_append] at hgap
      split at hgap
      · simp at hgap
        rw [hgap]
      · simp at hgap
  | some newest =>
    obtain ⟨_, _, hclock⟩ := hbegun newest (newest_iff.mp hmax).1
    rcases mem_findGaps (by decide) hmax hgap with h | ⟨rfl, _⟩
    · exact h.le.trans (hclock.trans hstart)
    · exact le_refl _

/-- What the gap filler stores under another row is final. -/
theorem fetched_final (hanswers : ∀ c t, answer c = some t → start ≤ t ∧ t ≤ done) {gap : Int × Int}
    {m m' : Int} {k : Kline} (hfetched : Fetched api answer gap m k) (hminute' : cadenceMs ∣ m')
    (hlt : m < m') (hm' : m' ≤ start) : k = api.final m := by
  obtain ⟨c, t, hc, _, rfl⟩ := hfetched.row
  exact kline_final hfetched.isMinute hminute' hlt (hm'.trans (hanswers c t hc).1)

theorem settled_backfill (hbegun : Begun api clock table) (hstart : clock ≤ start)
    (hanswers : ∀ c t, answer c = some t → start ≤ t ∧ t ≤ done) (hsettled : Settled api table)
    (hpasses : (FeedRun.backfill start done floorMs answer).Passes api table) :
    Settled api (backfillKlines1m api answer start floorMs table).1 := by
  intro m k hk m' hm' hlt
  -- every row is of a minute that has begun at the start of the run
  have hminute' : cadenceMs ∣ m' ∧ m' ≤ start := by
    obtain h | ⟨k', _, gap, hgap, hfetched⟩ := get?_backfill start floorMs table m'
    · obtain ⟨hminute, _, hclock⟩ := hbegun m' (h ▸ hm')
      exact ⟨hminute, hclock.trans hstart⟩
    · exact ⟨hfetched.isMinute, hfetched.inGap.2.trans (gap_le_start hbegun hstart hgap)⟩
  obtain hm | ⟨k', hk', gap, _, hfetched⟩ := get?_backfill start floorMs table m
  · rw [hm] at hk
    obtain ⟨newest, hnewest⟩ := newest_of_isSome (hk ▸ rfl : (table.get? m).isSome)
    obtain ⟨hold, hle⟩ := newest_iff.mp hnewest
    rcases (hle m (hk ▸ rfl)).lt_or_eq with hlt' | rfl
    · exact hsettled m k hk newest hold hlt'
    · -- the newest old row: one above it is of the trailing gap
      obtain h | ⟨k', _, gap, hgap, hfetched⟩ := get?_backfill start floorMs table m'
      · exact absurd (hle m' (h ▸ hm')) (not_le.mpr hlt)
      · rcases mem_findGaps (by decide) hnewest hgap with h | ⟨rfl, htrailing⟩
        · exact absurd (hfetched.inGap.2.trans_lt h) (not_lt.mpr hlt.le)
        · rcases hpasses m k hnewest hk with hfinal | hfresh | hfails
          · exact hfinal
          · exact absurd htrailing (not_lt.mpr hfresh)
          · have hfirst := hfetched.first
            rw [hfails] at hfirst
            cases hfirst
  · rw [hk'] at hk
    cases hk
    exact fetched_final hanswers hfetched hminute'.1 hlt hminute'.2

/-- A forming row that the gap filler passes stays as it is. -/
theorem passes_of_settled (hbegun : Begun api clock table)
    (hanswers : ∀ c t, answer c = some t → start ≤ t ∧ t ≤ done)
    (h : Settled api (backfillKlines1m api answer start floorMs table).1) :
    (FeedRun.backfill start done floorMs answer).Passes api table := by
  intro m k hnewest hk
  by_contra hnot
  obtain ⟨hforming, hstale, hanswer⟩ := not_or.mp hnot |>.imp_right not_or.mp
  obtain ⟨t, ht⟩ := Option.ne_none_iff_exists'.mp hanswer
  have htrailing : (m + cadenceMs, start) ∈ findGaps table.keys cadenceMs start floorMs :=
    trailing_mem_findGaps hnewest (not_le.mp hstale)
  obtain ⟨hminute, hlisted, _⟩ := hbegun m (newest_iff.mp hnewest).1
  have hlt : m < m + cadenceMs := by
    simp only [cadenceMs]
    omega
  have hgap : m + cadenceMs ≤ start := by omega
  -- no gap has the newest row in it
  have hsame : (backfillKlines1m api answer start floorMs table).1.get? m = some k := by
    obtain h | ⟨k', _, gap, hgap, hfetched⟩ := get?_backfill start floorMs table m
    · rw [h, hk]
    · rcases mem_findGaps (by decide) hnewest hgap with h | ⟨rfl, _⟩
      · exact absurd (hfetched.inGap.2.trans_lt h) (lt_irrefl m)
      · exact absurd hfetched.inGap.1 (not_le.mpr hlt)
  have hnext := isSome_backfill_first htrailing ht hgap (hgap.trans (hanswers _ _ ht).1)
    (dvd_add hminute (dvd_refl _)) (hlisted.trans hlt.le)
  exact hforming (h m k hsame _ hnext hlt)

end backfill

/-! ### Every run -/

theorem FeedRun.begun_run {r : FeedRun} (htimed : r.Timed clock) (hbegun : Begun api clock table) :
    Begun api r.done (r.run api table) := by
  cases r with
  | backfill start done floorMs answer =>
    exact begun_backfill hbegun (htimed.start.trans htimed.done) fun c t hc =>
      htimed.answers t ⟨c, hc⟩
  | refresh start done answer =>
    cases answer with
    | none => exact hbegun.mono (htimed.start.trans htimed.done)
    | some t =>
      obtain ⟨hstart, hdone⟩ := htimed.answers t rfl
      exact (begun_refresh hbegun (htimed.start.trans hstart)).mono hdone

/-- A run keeps the rows before the newest one final exactly if it does not pass a forming row. -/
theorem FeedRun.settled_run_iff {r : FeedRun} (htimed : r.Timed clock)
    (hbegun : Begun api clock table) (hsettled : Settled api table) :
    Settled api (r.run api table) ↔ r.Passes api table := by
  cases r with
  | backfill start done floorMs answer =>
    have hanswers : ∀ c t, answer c = some t → start ≤ t ∧ t ≤ done := fun c t hc =>
      htimed.answers t ⟨c, hc⟩
    exact ⟨passes_of_settled hbegun hanswers,
      settled_backfill hbegun htimed.start hanswers hsettled⟩
  | refresh start done answer =>
    refine iff_of_true ?_ trivial
    cases answer with
    | none => exact hsettled
    | some t => exact settled_refresh hbegun (htimed.start.trans (htimed.answers t rfl).1) hsettled

end Step

/-! ## Every sequence of runs -/

theorem settled_runs_iff {api : KlineApi} {clock : Int} {table : KlineTable} {rs : List FeedRun}
    (horder : InOrder clock rs) (hbegun : Begun api clock table) (hsettled : Settled api table) :
    (∀ n, Settled api (tableAfter api table rs n)) ↔
      ∀ n (r : FeedRun), rs[n]? = some r → r.Passes api (tableAfter api table rs n) := by
  refine Runs.all_good_iff (fun rs table => ∃ clock, InOrder clock rs ∧ Begun api clock table ∧
    Settled api table) (Settled api) (fun table r => r.Passes api table) ?_ ?_ ?_
    ⟨clock, horder, hbegun, hsettled⟩
  · rintro _ table ⟨_, -, -, hsettled⟩
    exact hsettled
  · rintro r rs table ⟨clock, ⟨htimed, horder⟩, hbegun, hsettled⟩ hpasses
    exact ⟨_, horder, r.begun_run htimed hbegun,
      (r.settled_run_iff htimed hbegun hsettled).mpr hpasses⟩
  · rintro r rs table ⟨clock, ⟨htimed, -⟩, hbegun, hsettled⟩
    exact (r.settled_run_iff htimed hbegun hsettled).mp

/-- From a table of final rows, the rows before the newest one are final after every run of a
sequence exactly if no gap filler of it passes a forming row. -/
theorem stored_candles_final_iff {api : KlineApi} {clock : Int} {table : KlineTable}
    {rs : List FeedRun} (horder : InOrder clock rs) (hfinal : AllFinal api clock table) :
    (∀ n, Settled api (tableAfter api table rs n)) ↔
      ∀ n (r : FeedRun), rs[n]? = some r → r.Passes api (tableAfter api table rs n) :=
  settled_runs_iff horder hfinal.begun hfinal.settled

/-- The volume of a minute is full when the minute has ended. -/
def steadyApi : KlineApi where
  listed := 60_000
  kline m t := ⟨1, 1, 1, 1, if m + cadenceMs ≤ t then 2 else 1, 1⟩
  final _ := ⟨1, 1, 1, 1, 2, 1⟩
  listed_pos := by decide
  listed_minute := by decide
  kline_eq_final m t _ := by
    split
    · next h => exact iff_of_true rfl h
    · next h => exact iff_of_false (by simp) h

/-- The feed starts, stores the forming minute, and starts again after some downtime. -/
def restartedFeed : List FeedRun :=
  [.backfill 90_000 90_000 none fun _ => some 90_000, .refresh 90_000 90_000 (some 90_000),
    .backfill 300_000 300_000 none fun _ => some 300_000, .refresh 300_000 300_000 (some 300_000)]

theorem restartedFeed_inOrder : InOrder 0 restartedFeed :=
  ⟨⟨by decide, by decide, by rintro t ⟨_, ht⟩; cases ht; decide⟩,
    ⟨by decide, by decide, by intro t ht; cases ht; decide⟩,
    ⟨by decide, by decide, by rintro t ⟨_, ht⟩; cases ht; decide⟩,
    ⟨by decide, by decide, by intro t ht; cases ht; decide⟩, trivial⟩

theorem restarted_feed_keeps_forming_row : ¬ ∀ (api : KlineApi) (clock : Int) (table : KlineTable)
    (rs : List FeedRun), InOrder clock rs → AllFinal api clock table →
      ∀ n, Settled api (tableAfter api table rs n) := by
  intro h
  have hempty : AllFinal steadyApi 0 Dict.empty := fun m k hk => by cases hk
  have hforming : (tableAfter steadyApi Dict.empty restartedFeed 4).get? 60_000 =
      some (steadyApi.kline 60_000 90_000) := by decide +kernel
  have hnext : ((tableAfter steadyApi Dict.empty restartedFeed 4).get? 120_000).isSome := by
    decide +kernel
  exact absurd (h _ _ _ _ restartedFeed_inOrder hempty 4 _ _ hforming _ hnext (by decide))
    (by decide +kernel)

theorem stored_candles_final_iff_steady :
    (∀ n, Settled steadyApi (tableAfter steadyApi Dict.empty restartedFeed n)) ↔
      ∀ n (r : FeedRun), restartedFeed[n]? = some r →
        r.Passes steadyApi (tableAfter steadyApi Dict.empty restartedFeed n) :=
  stored_candles_final_iff restartedFeed_inOrder fun m k hk => by cases hk

end P300
