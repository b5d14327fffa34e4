import Mathlib.Algebra.Order.Ring.Rat
import Mathlib.Data.Rat.Floor
import P300.Bots.Indicators
import P300.Lib.Pass
import P300.Regime.Ema

/-!
# The entry machine of the ADX bot

`_current_signal` of `adx/strategy/signal.py` walks over all daily candles at each tick, and says
whether the last of them is an entry. A machine that is kept running reads each candle once: the
stateless walk gives the events of its one pass.
-/

namespace P300

/-! ## `strategy/config.py` -/

def adxPeriod : ℕ := 14

def adxLowThresh : ℚ := 20

def adxHighThresh : ℚ := 25

def emaLen : ℕ := 50

def trendEmaLen : ℕ := 150

def warmupBars : ℕ := max (adxPeriod * 3) (max (emaLen + 1) (trendEmaLen + 1))

def symmetricTrendFilter : Bool := true

/-! ## One day -/

/-- What the walk reads at an index. -/
structure AdxDay where
  close : ℚ
  adx : Option ℚ
  ema : Option ℚ
  trendEma : Option ℚ

/-- The candles with their series. -/
def adxDays (candles : List DailyCandle) (trendEma : List (Option ℚ)) : List AdxDay :=
  let adxSeries := adx candles adxPeriod
  let emaSeries := emaSeries (candles.map (·.close)) emaLen
  candles.zipIdx.map fun (c, j) =>
    ⟨c.close, adxSeries[j]?.join, emaSeries[j]?.join, trendEma[j]?.join⟩

/-- `new_dir` -/
def AdxDay.newDir (d : AdxDay) (ema : ℚ) : Direction := if d.close > ema then .long else .short

/-- `blocked` -/
def AdxDay.blocked (d : AdxDay) (newDir : Direction) : Bool :=
  match d.trendEma with
  | none => false
  | some trend => (newDir = .long ∧ d.close ≤ trend) ∨
      (symmetricTrendFilter ∧ newDir = .short ∧ d.close ≥ trend)

/-! ## The walk -/

/-- The locals of the walk; an index of -1 is `none`. -/
structure SignalWalk where
  wasLow : Bool := false
  lastEntryIdx : Option ℕ := none
  lastEntryDir : Option Direction := none
  lastEntryBlocked : Bool := false

def SignalWalk.step (s : SignalWalk) (item : AdxDay × ℕ) : SignalWalk :=
  match item.1.adx, item.1.ema with
  | some a, some e =>
    let wasLow : Bool := s.wasLow ∨ a < adxLowThresh
    if wasLow ∧ a ≥ adxHighThresh then
      let newDir := item.1.newDir e
      let blocked := item.1.blocked newDir
      -- consumed also if blocked
      ⟨false, some item.2, if blocked then none else some newDir, blocked⟩
    else { s with wasLow }
  | _, _ => s

/-- `round(x, 2)`, half to even. -/
def round2 (x : ℚ) : ℚ :=
  let lower := ⌊x * 100⌋
  let rest := x * 100 - lower
  (if rest < 1 / 2 ∨ rest = 1 / 2 ∧ lower % 2 = 0 then lower else lower + 1 : ℤ) / 100

/-- The fields of the returned dictionary. -/
structure AdxSignal where
  date : Int
  adx : ℚ
  close : ℚ
  ema : ℚ
  trendEma : Option ℚ
  wasLowPending : Bool
  entrySig : Option Direction
  entryBlockedByTrend : Bool
  exitSig : Bool

/-- `_current_signal` -/
def currentSignal (candles : List DailyCandle) : Option AdxSignal :=
  if candles.length < warmupBars + 2 then none
  else
    let closes := candles.map (·.close)
    let i := candles.length - 1
    let trendEma := emaSeries closes trendEmaLen
    match candles[i]?, (adx candles adxPeriod)[i]?.join, (emaSeries closes emaLen)[i]?.join with
    | some last, some a, some e =>
      let trendEma :=
        if trendEma[i]?.join.isNone then List.replicate candles.length none else trendEma
      let s := (adxDays candles trendEma).zipIdx.foldl SignalWalk.step {}
      some
        { date := last.dt
          adx := round2 a
          close := last.close
          ema := round2 e
          trendEma := trendEma[i]?.join.map round2
          wasLowPending := s.wasLow
          entrySig := if s.lastEntryIdx = some i then s.lastEntryDir else none
          entryBlockedByTrend := if s.lastEntryIdx = some i then s.lastEntryBlocked else false
          exitSig := a < adxLowThresh }
    | _, _, _ => none

/-! ## The machine -/

/-- What a tick acts on. -/
structure DayVerdict where
  entry : Option Direction
  blocked : Bool
  exit : Bool
  deriving DecidableEq

/-- An entry, or one that the trend filter has rejected. -/
def DayVerdict.Fired (v : DayVerdict) : Prop := v.entry.isSome ∨ v.blocked

instance (v : DayVerdict) : Decidable v.Fired := inferInstanceAs (Decidable (_ ∨ _))

/-- The machine that is kept running: `was_low` is its state, and it says nothing on a day without
values. -/
def AdxDay.event (wasLow : Bool) (d : AdxDay) : Bool × Option DayVerdict :=
  match d.adx, d.ema with
  | some a, some e =>
    if (wasLow ∨ a < adxLowThresh) ∧ a ≥ adxHighThresh then
      (false, some ⟨if d.blocked (d.newDir e) then none
        else some (d.newDir e), d.blocked (d.newDir e), a < adxLowThresh⟩)
    else (wasLow ∨ a < adxLowThresh, some ⟨none, false, a < adxLowThresh⟩)
  | _, _ => (wasLow, none)

/-- One pass of the machine over the candles. -/
def onePass (candles : List DailyCandle) : List (Option DayVerdict) :=
  Pass.out AdxDay.event false (adxDays candles (emaSeries (candles.map (·.close)) trendEmaLen))

def AdxSignal.verdict (sig : AdxSignal) : DayVerdict :=
  ⟨sig.entrySig, sig.entryBlockedByTrend, sig.exitSig⟩

/-! ## The walk follows the machine -/

namespace SignalWalk

theorem wasLow_step (s : SignalWalk) (d : AdxDay) (i : ℕ) :
    (s.step (d, i)).wasLow = (d.event s.wasLow).1 := by
  unfold step AdxDay.event
  cases d.adx with
  | none => rfl
  | some a =>
    cases d.ema with
    | none => rfl
    | some e =>
      dsimp only
      simp only [decide_eq_true_eq]
      split <;> rfl

/-- If the entry index was another one, the day's event is what the walk shows at its index. -/
theorem event_step {s : SignalWalk} {d : AdxDay} {i : ℕ} {a e : ℚ} (hidx : s.lastEntryIdx ≠ some i)
    (ha : d.adx = some a) (he : d.ema = some e) :
    (d.event s.wasLow).2 =
      some ⟨if (s.step (d, i)).lastEntryIdx = some i then (s.step (d, i)).lastEntryDir else none,
        if (s.step (d, i)).lastEntryIdx = some i then (s.step (d, i)).lastEntryBlocked else false,
        a < adxLowThresh⟩ := by
  unfold step AdxDay.event
  rw [ha, he]
  dsimp only
  simp only [decide_eq_true_eq]
  split
  · simp only [if_true]
  · rfl

theorem wasLow_foldl (days : List AdxDay) (n : ℕ) (s : SignalWalk) :
    ((days.zipIdx n).foldl step s).wasLow = Pass.after AdxDay.event s.wasLow days := by
  induction days generalizing n s with
  | nil => rfl
  | cons d days ih =>
    rw [List.zipIdx_cons, List.foldl_cons, ih, wasLow_step]
    rfl

theorem lastEntryIdx_step {s : SignalWalk} {d : AdxDay} {i k : ℕ}
    (h : (s.step (d, i)).lastEntryIdx = some k) : s.lastEntryIdx = some k ∨ k = i := by
  unfold step at h
  split at h
  · dsimp only at h
    split at h
    · exact .inr (Option.some.inj h).symm
    · exact .inl h
  · exact .inl h

/-- The walk has not seen an entry at an index that is still to come. -/
theorem lastEntryIdx_foldl (days : List AdxDay) (n : ℕ) (s : SignalWalk)
    (hs : ∀ k, s.lastEntryIdx = some k → k < n)
    (k : ℕ) (h : ((days.zipIdx n).foldl step s).lastEntryIdx = some k) : k < n + days.length := by
  induction days generalizing n s with
  | nil => exact hs k h
  | cons d days ih =>
    rw [List.zipIdx_cons, List.foldl_cons] at h
    have hlt := ih (n + 1) (s.step (d, n)) (fun k hk => ?_) h
    · rw [List.length_cons]
      omega
    · rcases lastEntryIdx_step hk with hk | rfl
      · exact Nat.lt_succ_of_lt (hs k hk)
      · exact Nat.lt_succ_self _

theorem foldl_last {days : List AdxDay} {d : AdxDay} {i : ℕ} (h : days[i]? = some d)
    (hlen : days.length = i + 1) (s : SignalWalk) :
    days.zipIdx.foldl step s = ((days.take i).zipIdx.foldl step s).step (d, i) := by
  obtain ⟨hi, rfl⟩ := List.getElem?_eq_some_iff.mp h
  have hdays : days = days.take i ++ [days[i]] := by
    rw [← List.take_succ_eq_append_getElem hi, List.take_of_length_le (by omega)]
  have hlast := congrArg (fun days : List AdxDay => days.zipIdx.foldl step s) hdays
  rw [hlast, List.zipIdx_append, List.foldl_append, List.length_take, Nat.min_eq_left (by omega),
    Nat.zero_add]
  rfl

end SignalWalk

/-! ## Days of a longer list -/

theorem getElem?_adxDays (candles : List DailyCandle) (trendEma : List (Option ℚ)) (i : ℕ) :
    (adxDays candles trendEma)[i]? = candles[i]?.map fun c =>
      ⟨c.close, (adx candles adxPeriod)[i]?.join,
        (emaSeries (candles.map (·.close)) emaLen)[i]?.join, trendEma[i]?.join⟩ := by
  rw [adxDays, List.getElem?_map, List.getElem?_zipIdx, Option.map_map, Nat.zero_add]
  rfl

theorem length_adxDays (candles : List DailyCandle) (trendEma : List (Option ℚ)) :
    (adxDays candles trendEma).length = candles.length := by
  rw [adxDays, List.length_map, List.length_zipIdx]

/-- The closes' average of a longer list. -/
theorem closeEma_take {period : ℕ} (hp : 0 < period) (candles : List DailyCandle) {n i : ℕ}
    (hi : i < n) (hn : n ≤ candles.length) :
    (emaSeries ((candles.take n).map (·.close)) period)[i]? =
      (emaSeries (candles.map (·.close)) period)[i]? := by
  have hcausal := (causal_emaSeries hp).comp (Causal.map DailyCandle.close)
  have h := hcausal.getElem? (l := candles.take n) (i := i)
    (by rw [length_emaSeries hp, List.length_map, List.length_take]; omega) (candles.drop n)
  rw [List.take_append_drop] at h
  exact h.symm

theorem adx_take (candles : List DailyCandle) (period : ℕ) {n i : ℕ} (hi : i < n)
    (hn : n ≤ candles.length) : (adx (candles.take n) period)[i]? = (adx candles period)[i]? := by
  have h := (causal_adx period).getElem? (l := candles.take n) (i := i)
    (by rw [length_adx, List.length_take]; omega) (candles.drop n)
  rw [List.take_append_drop] at h
  exact h.symm

/-- The machine reads the same days in a longer list. -/
theorem adxDays_take (candles : List DailyCandle) {n : ℕ} (hn : n ≤ candles.length) :
    adxDays (candles.take n) (emaSeries ((candles.take n).map (·.close)) trendEmaLen) =
      (adxDays candles (emaSeries (candles.map (·.close)) trendEmaLen)).take n := by
  refine List.ext_getElem? fun i => ?_
  rw [List.getElem?_take, getElem?_adxDays, getElem?_adxDays, List.getElem?_take]
  by_cases hi : i < n
  · rw [if_pos hi, if_pos hi, adx_take candles adxPeriod hi hn,
      closeEma_take (by decide) candles hi hn, closeEma_take (by decide) candles hi hn]
  · rw [if_neg hi, if_neg hi, Option.map_none]

theorem onePass_take (candles : List DailyCandle) {n i : ℕ} (hi : i < n) (hn : n ≤ candles.length) :
    (onePass (candles.take n))[i]? = (onePass candles)[i]? := by
  rw [onePass, onePass, adxDays_take candles hn]
  have h := (Pass.causal_out AdxDay.event false).getElem?
    (l := (adxDays candles (emaSeries (candles.map (·.close)) trendEmaLen)).take n) (i := i)
    (by rw [Pass.length_out, List.length_take, length_adxDays]; omega)
    ((adxDays candles (emaSeries (candles.map (·.close)) trendEmaLen)).drop n)
  rw [List.take_append_drop] at h
  exact h.symm

/-- The walk over the candles says about the last day what the machine says. -/
theorem currentSignal_verdict {candles : List DailyCandle} {i : ℕ}
    (hlen : warmupBars + 2 ≤ candles.length) (hi : i = candles.length - 1) :
    (currentSignal candles).map AdxSignal.verdict = (onePass candles)[i]?.join := by
  have hlt : i < candles.length := by omega
  have hwarm : trendEmaLen ≤ i + 1 := by
    have : trendEmaLen ≤ warmupBars := by decide
    omega
  obtain ⟨trend, htrend⟩ : ∃ v, (emaSeries (candles.map (·.close)) trendEmaLen)[i]? =
      some (some v) := by
    rw [emaSeries_eq_seeded]
    exact Causal.seeded_isSome _ _ hwarm (by rwa [List.length_map])
  have hday := getElem?_adxDays candles (emaSeries (candles.map (·.close)) trendEmaLen) i
  rw [List.getElem?_eq_getElem hlt, Option.map_some, htrend, Option.join_some] at hday
  rw [currentSignal, if_neg (by omega), onePass, Pass.getElem?_out, hday]
  dsimp only
  rw [← hi, htrend, List.getElem?_eq_getElem hlt]
  cases ha : (adx candles adxPeriod)[i]?.join with
  | none => rfl
  | some a =>
    cases he : (emaSeries (candles.map (·.close)) emaLen)[i]?.join with
    | none => rfl
    | some e =>
      rw [ha, he] at hday
      have hlast := SignalWalk.foldl_last hday (by rw [length_adxDays]; omega) {}
      have hbefore : (((adxDays candles (emaSeries (candles.map (·.close)) trendEmaLen)).take
          i).zipIdx.foldl
          SignalWalk.step {}).lastEntryIdx ≠ some i := by
        intro hidx
        have hlt := SignalWalk.lastEntryIdx_foldl _ 0 {} (by simp) i hidx
        rw [List.length_take] at hlt
        omega
      have hevent := SignalWalk.event_step (d := ⟨candles[i].close, some a, some e, some trend⟩)
        hbefore rfl rfl
      rw [← hlast, SignalWalk.wasLow_foldl] at hevent
      exact hevent.symm

theorem le_length_of_currentSignal {candles : List DailyCandle} {sig : AdxSignal}
    (h : currentSignal candles = some sig) : warmupBars + 2 ≤ candles.length := by
  by_contra hlt
  rw [currentSignal, if_pos (by omega)] at h
  cases h

/-! ## One event for each compression -/

/-- A day in compression. -/
def AdxDay.Low (d : AdxDay) : Prop := ∃ a, d.adx = some a ∧ a < adxLowThresh

/-- The machine is armed by a day in compression only. -/
theorem low_of_armed {d : AdxDay} {wasLow : Bool} (h : (d.event wasLow).1 = true) :
    wasLow = true ∨ d.Low := by
  unfold AdxDay.event at h
  split at h
  · next a e ha he =>
    split at h
    · cases h
    · exact (of_decide_eq_true h).imp id fun hlow => ⟨a, ha, hlow⟩
  · exact .inl h

/-- An event needs an armed machine, and leaves it unarmed. -/
theorem event_fired {d : AdxDay} {wasLow : Bool} {v : DayVerdict} (h : (d.event wasLow).2 = some v)
    (hv : v.Fired) : (d.event wasLow).1 = false ∧ (wasLow = true ∨ d.Low) := by
  unfold AdxDay.event at h ⊢
  split at h
  · next a e ha he =>
    split at h
    · next hfires => exact ⟨if_pos hfires ▸ rfl, hfires.1.imp id fun hlow => ⟨a, ha, hlow⟩⟩
    · cases h
      exact absurd hv (by simp [DayVerdict.Fired])
  · cases h

theorem low_of_after {days : List AdxDay} {wasLow : Bool}
    (h : Pass.after AdxDay.event wasLow days = true) : wasLow = true ∨ ∃ d ∈ days, d.Low := by
  induction days generalizing wasLow with
  | nil => exact .inl h
  | cons d days ih =>
    rcases ih h with harmed | ⟨d', hd', hlow⟩
    · exact (low_of_armed harmed).imp id fun hlow => ⟨d, List.mem_cons_self, hlow⟩
    · exact .inr ⟨d', List.mem_cons_of_mem d hd', hlow⟩

/-- Between two events there is a day in compression. -/
theorem low_between {days : List AdxDay} {i j : ℕ} {v v' : DayVerdict} (hij : i < j)
    (hi : (Pass.out AdxDay.event false days)[i]?.join = some v) (hv : v.Fired)
    (hj : (Pass.out AdxDay.event false days)[j]?.join = some v') (hv' : v'.Fired) :
    ∃ k d, i < k ∧ k ≤ j ∧ days[k]? = some d ∧ d.Low := by
  rw [Pass.getElem?_out, Option.join_eq_some_iff] at hi hj
  obtain ⟨d, hd, hevent⟩ := Option.map_eq_some_iff.mp hi
  obtain ⟨d', hd', hevent'⟩ := Option.map_eq_some_iff.mp hj
  have hafter : Pass.after AdxDay.event false (days.take (i + 1)) = false := by
    rw [Pass.after_take_succ hd]
    exact (event_fired hevent hv).1
  rcases (event_fired hevent' hv').2 with harmed | hlow
  · -- armed before the second event, and not after the first one
    have hsplit : days.take j = days.take (i + 1) ++ (days.take j).drop (i + 1) := by
      conv_lhs => rw [← List.take_append_drop (i + 1) (days.take j), List.take_take,
        Nat.min_eq_left hij]
    rw [hsplit, Pass.after_append, hafter] at harmed
    obtain ⟨d, hmem, hlow⟩ := (low_of_after harmed).resolve_left (by decide)
    obtain ⟨k, hk⟩ := List.mem_iff_getElem?.mp hmem
    rw [List.getElem?_drop, List.getElem?_take] at hk
    split at hk
    · next hlt => exact ⟨i + 1 + k, d, by omega, Nat.le_of_lt hlt, hk, hlow⟩
    · cases hk
  · exact ⟨j, d', hij, le_rfl, hd', hlow⟩

/-- The ticks report an entry or a block once for each compression, and what a tick reports is the
event that one pass over any longer list has on its day. -/
theorem adx_fires_once_per_compression (candles : List DailyCandle) :
    (∀ i j sig sig', i < j → j < candles.length → currentSignal (candles.take (i + 1)) = some sig →
      currentSignal (candles.take (j + 1)) = some sig' → sig.verdict.Fired → sig'.verdict.Fired →
      ∃ k, i < k ∧ k ≤ j ∧ ∃ a, (adx candles adxPeriod)[k]? = some (some a) ∧ a < adxLowThresh) ∧
    (∀ i, warmupBars + 2 ≤ i + 1 → i < candles.length →
      (currentSignal (candles.take (i + 1))).map AdxSignal.verdict =
        (onePass candles)[i]?.join) := by
  have htick : ∀ i, warmupBars + 2 ≤ i + 1 → i < candles.length →
      (currentSignal (candles.take (i + 1))).map AdxSignal.verdict =
        (onePass candles)[i]?.join := by
    intro i hwarm hi
    have hlen : (candles.take (i + 1)).length = i + 1 := by rw [List.length_take]; omega
    rw [currentSignal_verdict (by omega) (by omega : i = (candles.take (i + 1)).length - 1),
      onePass_take candles (Nat.lt_succ_self i) hi]
  refine ⟨fun i j sig sig' hij hj hi hj' hfired hfired' => ?_, htick⟩
  have hlen := le_length_of_currentSignal hi
  rw [List.length_take] at hlen
  have hpass : ∀ {n : ℕ} {sig : AdxSignal}, i ≤ n → n < candles.length →
      currentSignal (candles.take (n + 1)) = some sig →
        (onePass candles)[n]?.join = some sig.verdict := by
    intro n sig hin hn hsig
    rw [← htick n (by omega) hn, hsig]
    rfl
  obtain ⟨k, d, hik, hkj, hd, a, ha, hlow⟩ :=
    low_between hij (hpass le_rfl (hij.trans hj) hi) hfired
    (hpass hij.le hj hj') hfired'
  rw [getElem?_adxDays] at hd
  obtain ⟨c, -, rfl⟩ := Option.map_eq_some_iff.mp hd
  exact ⟨k, hik, hkj, a, Option.join_eq_some_iff.mp ha, hlow⟩

/-- Days around 100, five up, six around 101 and six up. -/
def twoCompressions : List DailyCandle :=
  (List.replicate 149 (100 : ℚ) ++ [101, 102, 103, 104, 105] ++ List.replicate 7 101 ++
    [102, 103, 104, 105, 106, 107]).zipIdx.map fun (item : ℚ × ℕ) =>
    ⟨19_723 + item.2, item.1 + 1, item.1 - 1, item.1⟩

theorem adx_fires_once_per_compression_twice : ∃ k, 152 < k ∧ k ≤ 165 ∧
    ∃ a, (adx twoCompressions adxPeriod)[k]? = some (some a) ∧ a < adxLowThresh := by
  have hfirst : (currentSignal (twoCompressions.take 153)).any fun sig => sig.verdict.Fired := by
    decide +kernel
  have hsecond : (currentSignal (twoCompressions.take 166)).any fun sig => sig.verdict.Fired := by
    decide +kernel
  obtain ⟨sig, hsig, hfired⟩ := (Option.any_eq_true ..).mp hfirst
  obtain ⟨sig', hsig', hfired'⟩ := (Option.any_eq_true ..).mp hsecond
  exact (adx_fires_once_per_compression twoCompressions).1 152 165 sig sig' (by decide)
    (by decide +kernel) hsig hsig' (of_decide_eq_true hfired) (of_decide_eq_true hfired')

end P300
