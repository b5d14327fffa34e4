import P300.Stops.Path
import P300.Lib.Sorted
import Mathlib.Tactic.Common

/-!
# Resuming the walk

On a candle table that does not change, ticks that resume from the checkpoint of the tick before
return the same exit at the same tick as walks that start at the entry every time.
-/

namespace P300

/-! ## The first crossing -/

/-- The level that would execute first: the highest one of a long, the lowest one of a short. -/
def Tightest (direction : Direction) (levels : Levels) (reason : String) (stop : ℚ) : Prop :=
  (reason, stop) ∈ validLevels levels ∧
    ∀ l ∈ validLevels levels, if direction = .long then l.2 ≤ stop else stop ≤ l.2

/-- The valid candle `c` crosses the tightest of the levels known at its open, with the exit `e`:
the worse of the open and the stop, at the open if it gapped through the stop and else at the
close. -/
structure Crosses (direction : Direction) (levelsAt : Time → Levels) (c : Candle) (p : Ohlc)
    (stop : ℚ) (e : StopExit) : Prop where
  valid : c.valid? = some p
  tightest : Tightest direction (levelsAt (c.openTime * 1000)) e.reason stop
  touched : if direction = .long then p.low ≤ stop else stop ≤ p.high
  price : e.price = if direction = .long then min p.open_ stop else max p.open_ stop
  at_ : e.at_ = if (if direction = .long then p.open_ ≤ stop else stop ≤ p.open_) then
    c.openTime * 1000 else (c.openTime + minuteMs) * 1000

section crossing

variable {direction : Direction} {levelsAt : Time → Levels} {c : Candle}

theorem crosses_of_exit? {e : StopExit} (h : c.exit? direction levelsAt = some e) :
    ∃ p stop, Crosses direction levelsAt c p stop e := by
  obtain ⟨p, hp, h⟩ := Option.bind_eq_some_iff.mp h
  cases direction with
  | long =>
    obtain ⟨⟨reason, stop⟩, hmax, h⟩ := Option.bind_eq_some_iff.mp h
    obtain ⟨ht, he⟩ := Option.ite_none_right_eq_some.mp h
    cases he
    exact ⟨p, stop, hp, ⟨List.argmax_mem hmax, fun l hl => List.le_of_mem_argmax hl hmax⟩, ht, rfl,
      rfl⟩
  | short =>
    obtain ⟨⟨reason, stop⟩, hmin, h⟩ := Option.bind_eq_some_iff.mp h
    obtain ⟨ht, he⟩ := Option.ite_none_right_eq_some.mp h
    cases he
    exact ⟨p, stop, hp, ⟨List.argmin_mem hmin, fun l hl => List.le_of_mem_argmin hl hmin⟩, ht, rfl,
      rfl⟩
  | other text => cases h

theorem exit?_ne_none {p : Ohlc} {stop : ℚ} {e : StopExit} (hd : direction.Perp)
    (h : Crosses direction levelsAt c p stop e) : c.exit? direction levelsAt ≠ none := by
  obtain ⟨hmem, hbest⟩ := h.tightest
  rw [Candle.exit?, h.valid, Option.bind_some]
  rcases hd with rfl | rfl
  · cases hmax : (validLevels (levelsAt (c.openTime * 1000))).argmax Prod.snd with
    | none => exact absurd hmem (List.argmax_eq_none.mp hmax ▸ List.not_mem_nil)
    | some l =>
      have hstop : l.2 = stop :=
        le_antisymm (hbest l (List.argmax_mem hmax)) (List.le_of_mem_argmax hmem hmax)
      have ht : p.low ≤ l.2 := hstop ▸ h.touched
      rw [hit, hmax]
      exact fun hc => Option.some_ne_none _ ((if_pos ht).symm.trans hc)
  · cases hmin : (validLevels (levelsAt (c.openTime * 1000))).argmin Prod.snd with
    | none => exact absurd hmem (List.argmin_eq_none.mp hmin ▸ List.not_mem_nil)
    | some l =>
      have hstop : l.2 = stop :=
        le_antisymm (List.le_of_mem_argmin hmem hmin) (hbest l (List.argmin_mem hmin))
      have ht : p.high ≥ l.2 := hstop ▸ h.touched
      rw [hit, hmin]
      exact fun hc => Option.some_ne_none _ ((if_pos ht).symm.trans hc)

theorem grid_of_valid? (h : c.valid?.isSome) : c.openTime % minuteMs = 0 := by
  obtain ⟨p, hp⟩ := Option.isSome_iff_exists.mp h
  simp only [Candle.valid?, Option.bind_eq_bind, Option.bind_eq_some_iff] at hp
  obtain ⟨o, -, h, -, l, -, cl, -, hp⟩ := hp
  by_contra hne
  rw [if_pos (.inl hne)] at hp
  cases hp

theorem grid_of_exit? (h : c.exit? direction levelsAt ≠ none) : c.openTime % minuteMs = 0 := by
  obtain ⟨e, he⟩ := Option.ne_none_iff_exists'.mp h
  obtain ⟨p, hp, -⟩ := Option.bind_eq_some_iff.mp he
  exact grid_of_valid? (Option.isSome_of_eq_some hp)

end crossing

/-! ## What one call walks -/

theorem CandleTable.mem_inRanges {table : CandleTable} {ranges : List (Int × Int)} {c : Candle} :
    c ∈ table.inRanges ranges ↔ c ∈ table.rows ∧ Intervals.Covers ranges c.openTime := by
  simp only [inRanges, between, List.mem_flatMap, List.mem_filter, decide_eq_true_eq,
    Intervals.Covers]
  constructor
  · rintro ⟨r, hr, hc, hx⟩
    exact ⟨hc, r, hr, hx⟩
  · rintro ⟨hc, r, hr, hx⟩
    exact ⟨r, hr, hc, hx⟩

theorem CandleTable.inRanges_sorted (table : CandleTable) {ranges : List (Int × Int)}
    (h : ranges.Pairwise fun a b => a.2 + minuteMs < b.1) :
    (table.inRanges ranges).Pairwise fun c c' => c.openTime < c'.openTime := by
  refine List.pairwise_flatMap.mpr ⟨fun r _ => table.sorted.filter _, h.imp ?_⟩
  intro r r' hr c hc c' hc'
  have h1 := of_decide_eq_true (List.mem_filter.mp hc).2
  have h2 := of_decide_eq_true (List.mem_filter.mp hc').2
  simp only [minuteMs] at hr
  omega

namespace Plan

variable {trade : StopTrade} {t : Tick} {table : CandleTable} {state : Option Checkpoint}

theorem ranges_separated (p : Plan) :
    (p.ranges trade).Pairwise fun a b => a.2 + minuteMs < b.1 :=
  Intervals.merge_separated (by decide) _

/-- The walked ranges lie between the first full minute and the upper bound. -/
theorem ranges_bounds {r : Int × Int} (hr : r ∈ (make trade t table state).ranges trade) :
    trade.firstMs ≤ r.1 ∧ r.2 ≤ (make trade t table state).upper ∧ r.1 ≤ r.2 := by
  refine Intervals.ends_merge (P := (trade.firstMs ≤ ·))
    (Q := (· ≤ (make trade t table state).upper)) (fun r' hr' => ?_) r hr
  rcases List.mem_append.mp hr' with hr' | hr'
  · obtain ⟨gap, hgap, rfl⟩ := List.mem_map.mp hr'
    obtain ⟨saved, -, rfl⟩ := List.mem_map.mp hgap
    exact ⟨le_max_left .., min_le_right ..⟩
  · rw [List.mem_singleton.mp hr']
    exact ⟨le_max_left .., le_rfl⟩

/-- The stretch after the mark is walked. -/
theorem covers_stretch (p : Plan) {x : Int} (h1 : trade.firstMs ≤ x) (h2 : p.through + minuteMs ≤ x)
    (h3 : x ≤ p.upper) : Intervals.Covers (p.ranges trade) x :=
  Intervals.covers_merge ⟨_, List.mem_append_right _ (List.mem_singleton_self _), max_le h1 h2, h3⟩

theorem upper_le (trade : StopTrade) (t : Tick) (table : CandleTable) (state : Option Checkpoint) :
    (make trade t table state).upper ≤ t.clockUpper ∨
      (make trade t table state).upper = trade.firstMs - minuteMs := by
  simp only [make]
  split
  · exact .inl le_rfl
  · split
    · exact .inr rfl
    · exact .inl (min_le_left ..)

/-- The upper bound is a whole minute, or the newest row decides it. -/
theorem upper_grid (trade : StopTrade) (t : Tick) (table : CandleTable)
    (state : Option Checkpoint) :
    (make trade t table state).upper % minuteMs = 0 ∨ t.simulated = false ∧
      ∃ latest, table.latest = some latest ∧
        (make trade t table state).upper = latest - minuteMs := by
  have hclock : t.clockUpper % minuteMs = 0 := Int.mul_emod_left ..
  have hfirst : (trade.firstMs - minuteMs) % minuteMs = 0 := by
    rw [Int.sub_emod, StopTrade.firstMs, Int.mul_emod_left, Int.emod_self]
    rfl
  simp only [make]
  split
  · exact .inl hclock
  · next hsim =>
    split
    · exact .inl hfirst
    · next latest hlatest =>
      rcases min_choice t.clockUpper (latest - minuteMs) with h | h
      · rw [h]
        exact .inl hclock
      · rw [h]
        exact .inr ⟨Bool.not_eq_true _ ▸ hsim, latest, hlatest, rfl⟩

end Plan

/-! ## Ticks over an unchanging table -/

/-- The clock mode and the candles of a run of ticks. -/
structure StopMarket where
  simulated : Bool
  btc1m : CandleTable
  eth1m : CandleTable

/-- A tick without a quote. -/
def StopMarket.tick (m : StopMarket) (now : Time) : Tick where
  now := now
  simulated := m.simulated
  btc1m := m.btc1m
  eth1m := m.eth1m

section ticks

variable (trade : StopTrade) (levelsAt : Time → Levels) (m : StopMarket)

/-- The ticks at `nows`, each with the checkpoint that the one before has saved: the number of the
first one that returns an exit, and the exit. -/
def resumed (i : Nat) (state : Option Checkpoint) :
    List Time → Except StopPathError (Option (Nat × StopExit))
  | [] => .ok none
  | now :: nows => do
    let r ← checkStopPath trade levelsAt (m.tick now) state
    match r.1 with
    | some e => return some (i, e)
    | none => resumed (i + 1) r.2 nows

/-- The same, each tick without any checkpoint. -/
def single (i : Nat) : List Time → Except StopPathError (Option (Nat × StopExit))
  | [] => .ok none
  | now :: nows => do
    let r ← checkStopPath trade levelsAt (m.tick now) none
    match r.1 with
    | some e => return some (i, e)
    | none => single (i + 1) nows

/-- What a checkpoint promises at the clock `last`: no row up to the mark has a crossing, and the
mark is a whole minute unless no later row is ever walked. -/
structure Walked (table : CandleTable) (last : Time) (ck : Checkpoint) : Prop where
  past : ck.throughMs ≤ (m.tick last).clockUpper
  clear : ∀ c ∈ table.rows, trade.firstMs ≤ c.openTime → c.openTime ≤ ck.throughMs →
    c.exit? trade.direction levelsAt = none
  grid : ck.throughMs % minuteMs = 0 ∨ m.simulated = false ∧
    ∃ latest, table.latest = some latest ∧ latest ≤ ck.throughMs + minuteMs

end ticks

section step

variable {trade : StopTrade} {levelsAt : Time → Levels} {m : StopMarket} {table : CandleTable}
  {last now : Time} {state : Option Checkpoint}

theorem clockUpper_mono (m : StopMarket) (h : last ≤ now) :
    (m.tick last).clockUpper ≤ (m.tick now).clockUpper := by
  have h1 : last.tdiv 1000 ≤ now.tdiv 1000 := Int.tdiv_le_tdiv (by decide) h
  have h2 : last.tdiv 1000 / minuteMs ≤ now.tdiv 1000 / minuteMs := Int.ediv_le_ediv (by decide) h1
  exact Int.mul_le_mul_of_nonneg_right (Int.sub_le_sub_right h2 1) (by decide)

theorem Walked.mono {ck : Checkpoint} (h : Walked trade levelsAt m table last ck)
    (hle : last ≤ now) : Walked trade levelsAt m table now ck :=
  ⟨h.past.trans (clockUpper_mono m hle), h.clear, h.grid⟩

/-- The walk starts from the entry, or from the mark of a checkpoint that is not in the future. -/
theorem Plan.through_eq (hs : ∀ ck ∈ state, Walked trade levelsAt m table last ck)
    (hle : last ≤ now) :
    (make trade (m.tick now) table state).through = trade.firstMs - minuteMs ∨
      ∃ ck, Walked trade levelsAt m table now ck ∧
        (make trade (m.tick now) table state).through = ck.throughMs := by
  cases state with
  | none => exact .inl (ite_self _)
  | some ck =>
    have hw := (hs ck rfl).mono hle
    exact .inr ⟨ck, hw, if_neg hw.past.not_gt⟩

/-- In live mode no row after the newest but one is walked. -/
theorem upper_le_latest {latest : Int} (hs : m.simulated = false) (hl : table.latest = some latest)
    (trade : StopTrade) (now : Time) (state : Option Checkpoint) :
    (Plan.make trade (m.tick now) table state).upper ≤ latest - minuteMs := by
  simp only [Plan.make, StopMarket.tick, hs, hl]
  exact min_le_right ..

/-- A call walks all crossings between the first full minute and its upper bound. -/
theorem mem_inRanges_of_exit? (hs : ∀ ck ∈ state, Walked trade levelsAt m table last ck)
    (hle : last ≤ now) {c : Candle} (hc : c.exit? trade.direction levelsAt ≠ none) :
    c ∈ table.inRanges ((Plan.make trade (m.tick now) table state).ranges trade) ↔
      c ∈ table.rows ∧ trade.firstMs ≤ c.openTime ∧
        c.openTime ≤ (Plan.make trade (m.tick now) table none).upper := by
  rw [CandleTable.mem_inRanges]
  constructor
  · rintro ⟨hmem, r, hr, h1, h2⟩
    obtain ⟨hr1, hr2, -⟩ := Plan.ranges_bounds hr
    exact ⟨hmem, hr1.trans h1, h2.trans hr2⟩
  · rintro ⟨hmem, h1, h2⟩
    refine ⟨hmem, Plan.covers_stretch _ h1 ?_ h2⟩
    have hfresh : trade.firstMs - minuteMs + minuteMs ≤ c.openTime := by
      rw [sub_add_cancel]
      exact h1
    rcases Plan.through_eq hs hle with hthrough | ⟨ck, hw, hthrough⟩
    · rw [hthrough]
      exact hfresh
    · rw [hthrough]
      have hgt : ck.throughMs < c.openTime := by
        by_contra hge
        exact hc (hw.clear c hmem h1 (not_lt.mp hge))
      have hgrid := grid_of_exit? hc
      rcases hw.grid with hg | ⟨hsim, latest, hlatest, hle'⟩
      · simp only [minuteMs] at hg hgrid ⊢
        omega
      · -- live, and no row after the mark is ever walked
        have hup := h2.trans (upper_le_latest hsim hlatest ..)
        omega

/-- A call with a checkpoint finds the first crossing that a call without one finds. -/
theorem findSome?_walked (hs : ∀ ck ∈ state, Walked trade levelsAt m table last ck)
    (hle : last ≤ now) :
    (table.inRanges ((Plan.make trade (m.tick now) table state).ranges trade)).findSome?
        (Candle.exit? trade.direction levelsAt) =
      (table.inRanges ((Plan.make trade (m.tick now) table none).ranges trade)).findSome?
        (Candle.exit? trade.direction levelsAt) := by
  refine Sorted.findSome?_congr (table.inRanges_sorted (Plan.ranges_separated _))
    (table.inRanges_sorted (Plan.ranges_separated _)) fun c hc => ?_
  have hnone : ∀ ck ∈ (none : Option Checkpoint), Walked trade levelsAt m table last ck :=
    fun _ h => nomatch h
  rw [mem_inRanges_of_exit? hs hle hc, mem_inRanges_of_exit? hnone hle hc]

/-- The checkpoint that a call without a crossing saves keeps its promise. -/
theorem Walked.save (hs : ∀ ck ∈ state, Walked trade levelsAt m table last ck) (hle : last ≤ now)
    (hne : (Plan.make trade (m.tick now) table state).ranges trade ≠ [])
    (hnone : (table.inRanges ((Plan.make trade (m.tick now) table state).ranges trade)).findSome?
      (Candle.exit? trade.direction levelsAt) = none) (gaps : List (Int × Int)) :
    Walked trade levelsAt m table now ((Plan.make trade (m.tick now) table state).save gaps) := by
  have hclear : ∀ c ∈ table.rows, trade.firstMs ≤ c.openTime →
      c.openTime ≤ (Plan.make trade (m.tick now) table state).upper →
      c.exit? trade.direction levelsAt = none := by
    intro c hc h1 h2
    by_contra hex
    exact hex (List.findSome?_eq_none_iff.mp hnone c
      ((mem_inRanges_of_exit? hs hle hex).mpr ⟨hc, h1, h2⟩))
  obtain ⟨r, hr⟩ := List.exists_mem_of_ne_nil _ hne
  obtain ⟨hr1, hr2, hr3⟩ := Plan.ranges_bounds hr
  have hfirst : trade.firstMs ≤ (Plan.make trade (m.tick now) table state).upper :=
    hr1.trans (hr3.trans hr2)
  have hpos : (0 : Int) < minuteMs := by decide
  have hclock : (Plan.make trade (m.tick now) table state).upper ≤ (m.tick now).clockUpper := by
    rcases Plan.upper_le trade (m.tick now) table state with h | h
    · exact h
    · omega
  have hgrid : (Plan.make trade (m.tick now) table state).upper % minuteMs = 0 ∨
      m.simulated = false ∧ ∃ latest, table.latest = some latest ∧
        latest ≤ (Plan.make trade (m.tick now) table state).upper + minuteMs := by
    rcases Plan.upper_grid trade (m.tick now) table state with h | ⟨h1, latest, h2, h3⟩
    · exact .inl h
    · exact .inr ⟨h1, latest, h2, by omega⟩
  rcases Plan.through_eq hs hle with hthrough | ⟨ck, hw, hthrough⟩
  · -- the mark was just before the first full minute
    have hmax : ((Plan.make trade (m.tick now) table state).save gaps).throughMs =
        (Plan.make trade (m.tick now) table state).upper := max_eq_right (by omega)
    exact ⟨hmax ▸ hclock, fun c hc h1 h2 => hclear c hc h1 (hmax ▸ h2), hmax ▸ hgrid⟩
  · rcases le_total (Plan.make trade (m.tick now) table state).upper ck.throughMs with h | h
    · have hmax : ((Plan.make trade (m.tick now) table state).save gaps).throughMs =
          ck.throughMs := by
        rw [← hthrough]
        exact max_eq_left (hthrough ▸ h)
      exact ⟨hmax ▸ hw.past, fun c hc h1 h2 => hw.clear c hc h1 (hmax ▸ h2), hmax ▸ hw.grid⟩
    · have hmax : ((Plan.make trade (m.tick now) table state).save gaps).throughMs =
          (Plan.make trade (m.tick now) table state).upper := max_eq_right (hthrough ▸ h)
      exact ⟨hmax ▸ hclock, fun c hc h1 h2 => hclear c hc h1 (hmax ▸ h2), hmax ▸ hgrid⟩

/-- The step lemma: a tick with a checkpoint returns what a tick without one returns, and the
checkpoint that it leaves keeps its promise. -/
theorem checkStopPath_resumed (hs : ∀ table, (m.tick now).table? trade.asset = some table →
      ∀ ck ∈ state, Walked trade levelsAt m table last ck) (hle : last ≤ now) :
    (∃ e, checkStopPath trade levelsAt (m.tick now) state = .error e ∧
      checkStopPath trade levelsAt (m.tick now) none = .error e) ∨
    ∃ exit s' s'', checkStopPath trade levelsAt (m.tick now) state = .ok (exit, s') ∧
      checkStopPath trade levelsAt (m.tick now) none = .ok (exit, s'') ∧
      ∀ table, (m.tick now).table? trade.asset = some table →
        ∀ ck ∈ s', Walked trade levelsAt m table now ck := by
  rcases checkStopPath_cases trade levelsAt (m.tick now) with ⟨e, h⟩ | h | ⟨-, -, table, ht, h⟩
  · exact .inl ⟨e, h _, h _⟩
  · exact .inr ⟨none, state, none, h _, h _, fun table ht ck hck => (hs table ht ck hck).mono hle⟩
  · have hfirst := findSome?_walked (hs table ht) hle
    cases hfound : (table.inRanges
      ((Plan.make trade (m.tick now) table state).ranges trade)).findSome?
        (Candle.exit? trade.direction levelsAt) with
    | some e =>
      have hfresh := hfirst.symm.trans hfound
      refine .inr ⟨some e, state, none, ?_, ?_,
        fun table ht ck hck => (hs table ht ck hck).mono hle⟩
      · rw [h, checkCandles_of_some hfound]
      · rw [h, checkCandles_of_some hfresh]
    | none =>
      have hfresh := hfirst.symm.trans hfound
      refine .inr ⟨none, _, _, by rw [h, checkCandles_of_none rfl rfl hfound],
        by rw [h, checkCandles_of_none rfl rfl hfresh], fun table' ht' ck hck => ?_⟩
      obtain rfl : table = table' := Option.some_inj.mp (ht.symm.trans ht')
      split at hck
      · next hne =>
        cases hck
        exact Walked.save (hs table ht) hle hne hfound _
      · exact (hs table ht ck hck).mono hle

end step

/-- The run lemma. -/
theorem resumed_eq {trade : StopTrade} {levelsAt : Time → Levels} {m : StopMarket} {last : Time}
    {nows : List Time} {i : Nat} {state : Option Checkpoint}
    (hs : ∀ table, (m.tick last).table? trade.asset = some table →
      ∀ ck ∈ state, Walked trade levelsAt m table last ck)
    (hnows : (last :: nows).Pairwise (· ≤ ·)) :
    resumed trade levelsAt m i state nows = single trade levelsAt m i nows := by
  induction nows generalizing last i state with
  | nil => rfl
  | cons now nows ih =>
    obtain ⟨hlast, hnows⟩ := List.pairwise_cons.mp hnows
    rw [resumed, single]
    have hs : ∀ table, (m.tick now).table? trade.asset = some table →
        ∀ ck ∈ state, Walked trade levelsAt m table last ck := hs
    rcases checkStopPath_resumed hs (hlast now List.mem_cons_self) with
      ⟨e, h1, h2⟩ | ⟨exit, s', s'', h1, h2, hs'⟩
    · rw [h1, h2]
      rfl
    · rw [h1, h2, ok_bind, ok_bind]
      cases exit with
      | some e => rfl
      | none => exact ih hs' hnows

/-- `e` is the exit of the earliest candle from the first full minute after the entry to `upper`
that crosses the tightest of the levels known at its open. -/
def EarliestCrossing (trade : StopTrade) (levelsAt : Time → Levels) (table : CandleTable)
    (upper : Int) (e : StopExit) : Prop :=
  ∃ c ∈ table.rows, trade.firstMs ≤ c.openTime ∧ c.openTime ≤ upper ∧
    (∃ p stop, Crosses trade.direction levelsAt c p stop e) ∧
    ∀ c' ∈ table.rows, trade.firstMs ≤ c'.openTime → c'.openTime < c.openTime →
      ∀ p stop e', ¬ Crosses trade.direction levelsAt c' p stop e'

section single

variable {trade : StopTrade} {levelsAt : Time → Levels} {m : StopMarket} {table : CandleTable}
  {now : Time}

theorem findSome?_single {e : StopExit} :
    (table.inRanges ((Plan.make trade (m.tick now) table none).ranges trade)).findSome?
        (Candle.exit? trade.direction levelsAt) = some e ↔
      ∃ c ∈ table.rows, trade.firstMs ≤ c.openTime ∧
        c.openTime ≤ (Plan.make trade (m.tick now) table none).upper ∧
        c.exit? trade.direction levelsAt = some e ∧
        ∀ c' ∈ table.rows, trade.firstMs ≤ c'.openTime → c'.openTime < c.openTime →
          c'.exit? trade.direction levelsAt = none := by
  have hnone : ∀ ck ∈ (none : Option Checkpoint), Walked trade levelsAt m table now ck :=
    fun _ h => nomatch h
  rw [Sorted.findSome?_iff (table.inRanges_sorted (Plan.ranges_separated _))]
  constructor
  · rintro ⟨c, hc, he, hfirst⟩
    have hex : c.exit? trade.direction levelsAt ≠ none := by rw [he]; exact Option.some_ne_none e
    obtain ⟨hrow, h1, h2⟩ := (mem_inRanges_of_exit? hnone le_rfl hex).mp hc
    refine ⟨c, hrow, h1, h2, he, fun c' hc' h1' hlt => ?_⟩
    by_contra hne
    exact hne (hfirst c' ((mem_inRanges_of_exit? hnone le_rfl hne).mpr
      ⟨hc', h1', hlt.le.trans h2⟩) hlt)
  · rintro ⟨c, hrow, h1, h2, he, hfirst⟩
    have hex : c.exit? trade.direction levelsAt ≠ none := by rw [he]; exact Option.some_ne_none e
    refine ⟨c, (mem_inRanges_of_exit? hnone le_rfl hex).mpr ⟨hrow, h1, h2⟩, he,
      fun c' hc' hlt => ?_⟩
    by_contra hne
    obtain ⟨hrow', h1', -⟩ := (mem_inRanges_of_exit? hnone le_rfl hne).mp hc'
    exact hne (hfirst c' hrow' h1' hlt)

/-- A call without a checkpoint returns the earliest crossing, if there is one. -/
theorem single_earliest (hd : trade.direction.Perp) {e : StopExit}
    (h : (checkCandles trade levelsAt (m.tick now) table none).1 = some e) :
    EarliestCrossing trade levelsAt table (Plan.make trade (m.tick now) table none).upper e := by
  cases hfound : (table.inRanges ((Plan.make trade (m.tick now) table none).ranges trade)).findSome?
      (Candle.exit? trade.direction levelsAt) with
  | none =>
    rw [checkCandles_of_none rfl rfl hfound] at h
    cases h
  | some e' =>
    rw [checkCandles_of_some hfound] at h
    cases h
    obtain ⟨c, hrow, h1, h2, he, hfirst⟩ := findSome?_single.mp hfound
    refine ⟨c, hrow, h1, h2, crosses_of_exit? he, fun c' hc' h1' hlt p stop e' hcross => ?_⟩
    exact exit?_ne_none hd hcross (hfirst c' hc' h1' hlt)

/-- It finds a crossing in every complete candle. -/
theorem single_finds (hd : trade.direction.Perp) {c : Candle} (hc : c ∈ table.rows)
    (h1 : trade.firstMs ≤ c.openTime)
    (h2 : c.openTime ≤ (Plan.make trade (m.tick now) table none).upper) {p : Ohlc} {stop : ℚ}
    {e : StopExit} (hcross : Crosses trade.direction levelsAt c p stop e) :
    (checkCandles trade levelsAt (m.tick now) table none).1 ≠ none := by
  intro h
  cases hfound : (table.inRanges ((Plan.make trade (m.tick now) table none).ranges trade)).findSome?
      (Candle.exit? trade.direction levelsAt) with
  | none =>
    have hnone : ∀ ck ∈ (none : Option Checkpoint), Walked trade levelsAt m table now ck :=
      fun _ h => nomatch h
    have hex := exit?_ne_none hd hcross
    exact hex (List.findSome?_eq_none_iff.mp hfound c
      ((mem_inRanges_of_exit? hnone le_rfl hex).mpr ⟨hc, h1, h2⟩))
  | some e' =>
    rw [checkCandles_of_some hfound] at h
    cases h

end single

/-- Stop-path scanning is resumable: ticks that resume return the same exit at the same tick as
ticks that start over, and a tick that starts over returns the earliest crossing. -/
theorem scan_resumable (trade : StopTrade) (levelsAt : Time → Levels) (m : StopMarket)
    {nows : List Time} (hnows : nows.Pairwise (· ≤ ·)) :
    resumed trade levelsAt m 0 none nows = single trade levelsAt m 0 nows ∧
    ∀ now table, trade.direction.Perp → trade.actualEntryTime ≤ now →
      (m.tick now).table? trade.asset = some table →
      (∀ e, (∃ s, checkStopPath trade levelsAt (m.tick now) none = .ok (some e, s)) →
        EarliestCrossing trade levelsAt table (Plan.make trade (m.tick now) table none).upper e) ∧
      ((∃ s, checkStopPath trade levelsAt (m.tick now) none = .ok (none, s)) →
        ∀ c ∈ table.rows, trade.firstMs ≤ c.openTime →
          c.openTime ≤ (Plan.make trade (m.tick now) table none).upper →
          ∀ p stop e, ¬ Crosses trade.direction levelsAt c p stop e) := by
  constructor
  · cases nows with
    | nil => rfl
    | cons now nows =>
      have hs : ∀ table, (m.tick now).table? trade.asset = some table →
          ∀ ck ∈ (none : Option Checkpoint), Walked trade levelsAt m table now ck :=
        fun _ _ _ h => nomatch h
      refine resumed_eq hs (List.pairwise_cons.mpr ⟨fun a ha => ?_, hnows⟩)
      rcases List.mem_cons.mp ha with rfl | ha
      · exact le_rfl
      · exact (List.pairwise_cons.mp hnows).1 a ha
  · intro now table hd hnow ht
    have heq := checkStopPath_eq hd hnow ht levelsAt none
    constructor
    · rintro e ⟨s, hs⟩
      exact single_earliest hd (congrArg Prod.fst (Except.ok.inj (heq.symm.trans hs)))
    · rintro ⟨s, hs⟩ c hc h1 h2 p stop e hcross
      exact single_finds hd hc h1 h2 hcross (congrArg Prod.fst (Except.ok.inj (heq.symm.trans hs)))

/-- A long since 00:00:30 with a stop at 95, and three candles: the second one is malformed and the
third one falls to 94. -/
def fallingMarket : StopMarket where
  simulated := true
  btc1m := {
    rows :=
      [⟨60_000, some 100, some 101, some 99, some 100⟩,
        ⟨120_000, some 100, none, some 99, some 100⟩,
      ⟨180_000, some 100, some 101, some 94, some 96⟩]
    sorted := by decide }
  eth1m := .empty

def stopAt95 : Time → Levels := fun _ => [("stop_loss", some 95)]

def longAt30s : StopTrade := ⟨30_000_000, .long, "BTC"⟩

/-- The tick at 00:03:20 leaves a gap, the tick at 00:04:10 walks it again and finds the stop. -/
theorem scan_resumable_falling :
    single longAt30s stopAt95 fallingMarket 0 [200_000_000, 250_000_000] =
      .ok (some (1, ⟨95, 240_000_000, "stop_loss"⟩)) ∧
    resumed longAt30s stopAt95 fallingMarket 0 none [200_000_000, 250_000_000] =
      single longAt30s stopAt95 fallingMarket 0 [200_000_000, 250_000_000] :=
  ⟨by decide +kernel, (scan_resumable longAt30s stopAt95 fallingMarket (by decide)).1⟩

end P300
