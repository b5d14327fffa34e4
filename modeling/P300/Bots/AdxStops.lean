import Mathlib.Algebra.Order.Ring.Rat
import Mathlib.Data.List.Find
import P300.Bots.Indicators
import P300.Lib.Bisect
import P300.Stops.Path

/-!
# The stop ladder of the ADX bot

`adx/strategy/signal.py`: a trade of the bot is stopped at a fixed percentage, and at a trail that
every completed daily candle since its entry may tighten. `_atr_trail_level` is the last trail, and
`_stop_levels_at` the stops at each instant, for the walk over the minute candles.
-/

namespace P300

/-- `ATR_TRAIL_MULT` -/
def atrTrailMult : ℚ := 4

/-- `ATR_TRAIL_PERIOD` -/
def atrTrailPeriod : ℕ := 14

/-- The text of `trades.actual_entry_time`: the time as written, and its UTC offset unless it is
naive. -/
structure EntryStamp where
  written : Time
  offset : Option Int

/-- `entry_dt.astimezone(timezone.utc)`; a naive time is UTC. -/
def EntryStamp.utc (s : EntryStamp) : Time := s.written - s.offset.getD 0

/-- What is read of a trade. -/
structure AdxTrade where
  /-- upper-cased -/
  direction : Direction
  entryPrice : ℚ
  actualEntryTime : EntryStamp

/-- The index of the newest candle dated before the entry date. -/
def anchorBefore (candles : List DailyCandle) (entryDate : Int) : Option ℕ :=
  (List.range candles.length).reverse.find? fun i => candles[i]?.any fun c => c.dt < entryDate

/-- `final_at`: the candle of a day is complete when the next one begins. -/
def DailyCandle.finalAt (c : DailyCandle) : Time := (c.dt + 1) * 86_400_000_000

/-- What a candle with a range proposes. -/
def trailCandidate (direction : Direction) (c : DailyCandle) (a : ℚ) : ℚ :=
  if direction = .long then c.close - atrTrailMult * a else c.close + atrTrailMult * a

/-- A level only tightens. -/
def ratchet (direction : Direction) (level : Option ℚ) (candidate : ℚ) : ℚ :=
  match level with
  | none => candidate
  | some level => if direction = .long then max level candidate else min level candidate

/-- The candles from the anchor on, with their ranges. -/
def sinceAnchor (candles : List DailyCandle) (anchor : ℕ) : List (DailyCandle × Option ℚ) :=
  (candles.zip (atr candles atrTrailPeriod)).drop anchor

/-- The loop of `_atr_trail_level`. -/
def trailStep (direction : Direction) (level : Option ℚ)
    (item : DailyCandle × Option ℚ) : Option ℚ :=
  match item.2 with
  | none => level
  | some a => some (ratchet direction level (trailCandidate direction item.1 a))

/-- `_atr_trail_level`; the entry date is `entry_time_iso[:10]`. -/
def atrTrailLevel (candles : List DailyCandle) (entryDate : Int)
    (direction : Direction) : Option ℚ :=
  if atrTrailMult ≤ 0 ∨ candles = [] then none
  else match anchorBefore candles entryDate with
    | none => none
    | some anchor => (sinceAnchor candles anchor).foldl (trailStep direction) none

/-- The locals of the loop of `_stop_levels_at`. -/
structure Ladder where
  times : List Time := []
  levels : List ℚ := []
  level : Option ℚ := none

def Ladder.step (direction : Direction) (s : Ladder) (item : DailyCandle × Option ℚ) : Ladder :=
  match item.2 with
  | none => s
  | some a =>
    let level := ratchet direction s.level (trailCandidate direction item.1 a)
    ⟨s.times ++ [item.1.finalAt], s.levels ++ [level], some level⟩

/-- The trail in `at(when)`, if there is one yet. -/
def Ladder.stopsAt (s : Ladder) (when_ : Time) : Levels :=
  match Bisect.bisectRight s.times when_ with
  | 0 => []
  | i + 1 => [("ATR_trail", s.levels[i]?)]

/-- The times and levels that `_stop_levels_at` prepares. -/
def stopLadder (candles : List DailyCandle) (trade : AdxTrade) : Ladder :=
  match anchorBefore candles (utcDate trade.actualEntryTime.utc) with
  | none => {}
  | some anchor =>
    if atrTrailMult > 0 then (sinceAnchor candles anchor).foldl
      (Ladder.step trade.direction) {} else {}

/-- `_stop_levels_at(candles, trade, fixed_pct)(when)` -/
def stopLevelsAt (candles : List DailyCandle) (trade : AdxTrade) (fixedPct : ℚ)
    (when_ : Time) : Levels :=
  let fixed := trade.entryPrice *
    (if trade.direction = .long then 1 - fixedPct / 100 else 1 + fixedPct / 100)
  ("stop_loss", some fixed) :: (stopLadder candles trade).stopsAt when_

/-- The trailing level among the stops. -/
def trailOf (levels : Levels) : Option ℚ := (levels.lookup "ATR_trail").join

/-- `b` is at least as tight as `a`. -/
def Tighter (direction : Direction) (a b : ℚ) : Prop := if direction = .long then a ≤ b else b ≤ a

/-- One candle a day, in order: `sorted(days.keys())` in `_load_btc_daily_candles`. -/
def DayByDay (candles : List DailyCandle) : Prop := candles.Pairwise fun c c' => c.dt < c'.dt

instance (candles : List DailyCandle) : Decidable (DayByDay candles) :=
  inferInstanceAs (Decidable (candles.Pairwise _))

variable {candles added : List DailyCandle} {trade : AdxTrade} {direction : Direction}
  {fixedPct : ℚ} {t t' : Time}

theorem Tighter.refl (direction : Direction) (a : ℚ) : Tighter direction a a := by
  rw [Tighter]
  split <;> exact le_rfl

theorem Tighter.trans {a b c : ℚ} (hab : Tighter direction a b) (hbc : Tighter direction b c) :
    Tighter direction a c := by
  unfold Tighter at *
  by_cases h : direction = .long
  · rw [if_pos h] at *
    exact hab.trans hbc
  · rw [if_neg h] at *
    exact hbc.trans hab

theorem tighter_ratchet (direction : Direction) (level candidate : ℚ) :
    Tighter direction level (ratchet direction (some level) candidate) := by
  rw [Tighter, ratchet]
  split
  · exact le_max_left ..
  · exact min_le_left ..

/-! ## The ladder -/

namespace Ladder

/-- What the loop has prepared: a level for each time, in order, each at least as tight as those
before, and the last one is kept. -/
structure Sound (direction : Direction) (s : Ladder) : Prop where
  length_eq : s.levels.length = s.times.length
  last : s.level = s.levels.getLast?
  ratcheted : s.levels.Pairwise (Tighter direction)

theorem Sound.step {s : Ladder} (H : s.Sound direction) (item : DailyCandle × Option ℚ) :
    (s.step direction item).Sound direction := by
  unfold Ladder.step
  split
  · exact H
  · next a _ =>
    refine ⟨by simp [H.length_eq], by simp, List.pairwise_append.mpr ⟨H.ratcheted, by simp, ?_⟩⟩
    intro l hl l' hl'
    obtain rfl := List.mem_singleton.mp hl'
    -- the last level is at least as tight as all, and the new one at least as the last
    obtain ⟨init, last, hinit⟩ : ∃ init last, s.levels = init ++ [last] :=
      (List.eq_nil_or_concat' s.levels).resolve_left (List.ne_nil_of_mem hl)
    have hlevel : s.level = some last := by rw [H.last, hinit, List.getLast?_concat]
    have hlast : Tighter direction l last := by
      rcases List.mem_append.mp (hinit ▸ hl) with hl | hl
      · exact (List.pairwise_append.mp (hinit ▸ H.ratcheted)).2.2 l hl last List.mem_cons_self
      · exact List.mem_singleton.mp hl ▸ Tighter.refl direction _
    rw [hlevel]
    exact hlast.trans (tighter_ratchet direction last _)

theorem sound_foldl (items : List (DailyCandle × Option ℚ)) {s : Ladder} (H : s.Sound direction) :
    (items.foldl (Ladder.step direction) s).Sound direction := by
  induction items generalizing s with
  | nil => exact H
  | cons item items ih => exact ih (H.step item)

theorem sound_empty (direction : Direction) : ({} : Ladder).Sound direction := ⟨rfl, rfl, .nil⟩

/-- The level is that of `_atr_trail_level`. -/
theorem level_foldl (items : List (DailyCandle × Option ℚ)) (s : Ladder) :
    (items.foldl (Ladder.step direction) s).level = items.foldl (trailStep direction) s.level := by
  induction items generalizing s with
  | nil => rfl
  | cons item items ih =>
    rw [List.foldl_cons, ih, List.foldl_cons]
    congr 1
    unfold Ladder.step trailStep
    cases item.2 <;> rfl

theorem times_foldl (items : List (DailyCandle × Option ℚ)) (s : Ladder) :
    (items.foldl (Ladder.step direction) s).times =
      s.times ++ (items.filter fun item => item.2.isSome).map fun item => item.1.finalAt := by
  induction items generalizing s with
  | nil => simp
  | cons item items ih =>
    rw [List.foldl_cons, ih]
    unfold Ladder.step
    cases h : item.2 <;> simp [h]

theorem stopsAt_of_lt {s : Ladder} (ht : ∀ time ∈ s.times, t < time)
    (h : s.times.Pairwise (· ≤ ·)) :
    s.stopsAt t = [] := by
  have hzero : Bisect.bisectRight s.times t = Bisect.bisectRight [] t :=
    @Bisect.bisectRight_append _ _ [] _ _ h ht
  rw [stopsAt, hzero]
  rfl

/-- Rungs in the future are not seen. -/
theorem stopsAt_append {s s' : Ladder} {times : List Time} {levels : List ℚ}
    (hs : s.levels.length = s.times.length) (htimes : s'.times = s.times ++ times)
    (hlevels : s'.levels = s.levels ++ levels) (h : s'.times.Pairwise (· ≤ ·))
    (ht : ∀ time ∈ times, t < time) : s'.stopsAt t = s.stopsAt t := by
  rw [htimes] at h
  have hle := Bisect.bisectRight_le_length (List.pairwise_append.mp h).1 t
  rw [stopsAt, stopsAt, htimes, Bisect.bisectRight_append h ht, hlevels]
  cases hi : Bisect.bisectRight s.times t with
  | zero => rfl
  | succ i =>
    have hlt : i < s.levels.length := by omega
    change [("ATR_trail", (s.levels ++ levels)[i]?)] = [("ATR_trail", s.levels[i]?)]
    rw [List.getElem?_append_left hlt]

theorem trailOf_stopsAt (s : Ladder) (t : Time) :
    trailOf (s.stopsAt t) = match Bisect.bisectRight s.times t with
      | 0 => none
      | i + 1 => s.levels[i]? := by
  rw [stopsAt]
  cases Bisect.bisectRight s.times t <;> rfl

theorem Sound.trailOf_mono {s : Ladder} (H : s.Sound direction) (hs : s.times.Pairwise (· ≤ ·))
    (ht : t ≤ t') {level : ℚ} (h : trailOf (s.stopsAt t) = some level) :
    ∃ level', trailOf (s.stopsAt t') = some level' ∧ Tighter direction level level' := by
  have hmono := Bisect.bisectRight_mono hs ht
  have hle := Bisect.bisectRight_le_length hs t'
  rw [trailOf_stopsAt] at h ⊢
  cases hi : Bisect.bisectRight s.times t with
  | zero =>
    rw [hi] at h
    cases h
  | succ i =>
    cases hj : Bisect.bisectRight s.times t' with
    | zero => omega
    | succ j =>
      rw [hi] at h
      obtain ⟨hlt, rfl⟩ := List.getElem?_eq_some_iff.mp h
      have hjlt : j < s.levels.length := by have := H.length_eq; omega
      refine ⟨s.levels[j], List.getElem?_eq_getElem hjlt, ?_⟩
      rcases Nat.lt_or_ge i j with hij | hij
      · exact List.pairwise_iff_getElem.mp H.ratcheted i j hlt hjlt hij
      · have heq : i = j := by omega
        subst heq
        exact Tighter.refl direction _

/-- Once all rungs are reached, the trail is the last level. -/
theorem Sound.trailOf_last {s : Ladder} (H : s.Sound direction) (hs : s.times.Pairwise (· ≤ ·))
    (ht : ∀ time ∈ s.times, time ≤ t) : trailOf (s.stopsAt t) = s.level := by
  rw [trailOf_stopsAt, Bisect.bisectRight_eq_length hs ht, ← H.length_eq, H.last]
  cases hlen : s.levels.length with
  | zero =>
    rw [List.length_eq_zero_iff.mp hlen]
    rfl
  | succ i =>
    rw [List.getLast?_eq_getElem?, hlen]
    rfl

theorem levels_foldl (items : List (DailyCandle × Option ℚ)) (s : Ladder) :
    s.levels <+: (items.foldl (Ladder.step direction) s).levels := by
  refine Causal.prefix_foldl (fun s item => ?_) items s
  unfold Ladder.step
  split
  · exact List.prefix_rfl
  · exact List.prefix_append ..

end Ladder

theorem length_zip_atr (candles : List DailyCandle) :
    (candles.zip (atr candles atrTrailPeriod)).length = candles.length := by
  rw [List.length_zip, length_atr (by decide), Nat.min_self]

theorem stopLadder_sound (candles : List DailyCandle) (trade : AdxTrade) :
    (stopLadder candles trade).Sound trade.direction := by
  unfold stopLadder
  split
  · exact Ladder.sound_empty _
  · split
    · exact Ladder.sound_foldl _ (Ladder.sound_empty _)
    · exact Ladder.sound_empty _

/-- The times are completions of candles from the anchor on, in order. -/
theorem stopLadder_times (candles : List DailyCandle) (trade : AdxTrade) :
    (stopLadder candles trade).times = [] ∨
      ∃ anchor, anchorBefore candles (utcDate trade.actualEntryTime.utc) = some anchor ∧
        (stopLadder candles trade).times.Sublist
          ((candles.drop anchor).map DailyCandle.finalAt) := by
  unfold stopLadder
  split
  · exact .inl rfl
  · next anchor h =>
    refine .inr ⟨anchor, h, ?_⟩
    rw [if_pos (by decide +kernel), Ladder.times_foldl, List.nil_append]
    have hzip : (sinceAnchor candles anchor).map Prod.fst = candles.drop anchor := by
      rw [sinceAnchor, List.map_drop, List.map_fst_zip (length_atr (by decide) candles).ge]
    rw [← hzip, List.map_map]
    exact List.filter_sublist.map _

theorem anchorBefore_lt {date : Int} {i : ℕ} (h : anchorBefore candles date = some i) :
    ∃ c, candles[i]? = some c ∧ c.dt < date := by
  have hi := List.find?_some h
  cases hc : candles[i]? with
  | none => rw [hc] at hi; cases hi
  | some c => exact ⟨c, rfl, by simpa [hc] using hi⟩

/-! ## More candles -/

theorem anchorBefore_append (candles added : List DailyCandle) (date : Int) :
    anchorBefore (candles ++ added) date =
      ((anchorBefore added date).map (candles.length + ·)).or (anchorBefore candles date) := by
  unfold anchorBefore
  rw [List.length_append, List.range_add, List.reverse_append, List.find?_append,
    ← List.map_reverse, List.find?_map]
  have hadded : ((fun i => (candles ++ added)[i]?.any fun c => c.dt < date) ∘
      (candles.length + ·)) =
      fun i => added[i]?.any fun c => c.dt < date := by
    funext i
    rw [Function.comp_apply, List.getElem?_append_right (Nat.le_add_right ..),
      Nat.add_sub_cancel_left]
  have hcandles : (List.range candles.length).reverse.find?
      (fun i => (candles ++ added)[i]?.any fun c => c.dt < date) =
      (List.range candles.length).reverse.find? fun i => candles[i]?.any fun c => c.dt < date := by
    refine List.find?_congr fun i hi => ?_
    rw [List.getElem?_append_left (List.mem_range.mp (List.mem_reverse.mp hi))]
  rw [hadded, hcandles]

theorem anchorBefore_eq_none {date : Int} (h : ∀ c ∈ added, date ≤ c.dt) :
    anchorBefore added date = none := by
  cases ha : anchorBefore added date with
  | none => rfl
  | some i =>
    obtain ⟨c, hc, hlt⟩ := anchorBefore_lt ha
    exact absurd hlt (Int.not_lt.mpr (h c (List.mem_of_getElem? hc)))

theorem anchorBefore_cons_ne_none {first : DailyCandle} {date : Int} (h : first.dt < date) :
    anchorBefore (first :: added) date ≠ none := by
  intro hnone
  exact List.find?_eq_none.mp hnone 0 (by simp) (by simpa using h)

theorem sinceAnchor_append {anchor : ℕ} (h : anchor ≤ candles.length) :
    ∃ rest, sinceAnchor (candles ++ added) anchor = sinceAnchor candles anchor ++ rest ∧
      ∀ item ∈ rest, item.1 ∈ added := by
  obtain ⟨tail, htail⟩ : atr candles atrTrailPeriod <+: atr (candles ++ added) atrTrailPeriod :=
    causal_atr (by decide) candles added
  refine ⟨added.zip tail, ?_, fun item hitem => (List.of_mem_zip hitem).1⟩
  have hzip : (candles ++ added).zip (atr (candles ++ added) atrTrailPeriod) =
      candles.zip (atr candles atrTrailPeriod) ++ added.zip tail := by
    rw [← htail, List.zip_append (length_atr (by decide) candles).symm]
  rw [sinceAnchor, hzip, List.drop_append_of_le_length (by rw [length_zip_atr]; exact h)]
  rfl

/-- With added days from the entry date on, the ladder gets more rungs. -/
theorem stopLadder_append (h : ∀ c ∈ added, utcDate trade.actualEntryTime.utc ≤ c.dt) :
    ∃ times levels, (stopLadder (candles ++ added) trade).times =
      (stopLadder candles trade).times ++ times ∧
      (stopLadder (candles ++ added) trade).levels = (stopLadder candles trade).levels ++ levels ∧
      ∀ time ∈ times, ∃ c ∈ added, time = c.finalAt := by
  have hanchor := anchorBefore_append candles added (utcDate trade.actualEntryTime.utc)
  rw [anchorBefore_eq_none h, Option.map_none, Option.none_or] at hanchor
  unfold stopLadder
  rw [hanchor]
  cases ha : anchorBefore candles (utcDate trade.actualEntryTime.utc) with
  | none => exact ⟨[], [], rfl, rfl, by simp⟩
  | some anchor =>
    obtain ⟨c, hc, -⟩ := anchorBefore_lt ha
    obtain ⟨rest, hrest, hmem⟩ := @sinceAnchor_append candles added anchor
      (Nat.le_of_lt (List.getElem?_eq_some_iff.mp hc).1)
    dsimp only
    rw [if_pos (by decide +kernel), hrest, List.foldl_append]
    obtain ⟨levels, hlevels⟩ := @Ladder.levels_foldl trade.direction rest
      ((sinceAnchor candles anchor).foldl (Ladder.step trade.direction) {})
    refine ⟨_, levels, Ladder.times_foldl rest _, hlevels.symm, fun time htime => ?_⟩
    obtain ⟨item, hitem, rfl⟩ := List.mem_map.mp htime
    exact ⟨item.1, hmem item (List.mem_of_mem_filter hitem), rfl⟩

theorem finalAt_lt {c c' : DailyCandle} (h : c.dt < c'.dt) : c.finalAt < c'.finalAt := by
  change (c.dt + 1) * 86_400_000_000 < (c'.dt + 1) * (86_400_000_000 : Int)
  omega

theorem stopLadder_sorted (h : DayByDay candles) (trade : AdxTrade) :
    (stopLadder candles trade).times.Pairwise (· ≤ ·) := by
  rcases stopLadder_times candles trade with hnil | ⟨anchor, -, hsub⟩
  · rw [hnil]
    exact .nil
  · have hall : (candles.map DailyCandle.finalAt).Pairwise (· ≤ ·) :=
      List.pairwise_map.mpr (h.imp fun hlt => le_of_lt (finalAt_lt hlt))
    exact (hall.sublist ((List.drop_sublist anchor candles).map _)).sublist hsub

/-- Before the added days are complete, the stops are those without them. -/
theorem stopLevelsAt_append (h : DayByDay (candles ++ added)) (trade : AdxTrade) (fixedPct : ℚ)
    (hadded : ∀ c ∈ added, utcDate trade.actualEntryTime.utc ≤ c.dt)
    (ht : ∀ c ∈ added, t < c.finalAt) :
    stopLevelsAt (candles ++ added) trade fixedPct t = stopLevelsAt candles trade fixedPct t := by
  obtain ⟨times, levels, htimes, hlevels, hmem⟩ := @stopLadder_append candles added trade hadded
  rw [stopLevelsAt, stopLevelsAt,
    Ladder.stopsAt_append (stopLadder_sound candles trade).length_eq htimes hlevels
      (stopLadder_sorted h trade)]
  intro time htime
  obtain ⟨c, hc, rfl⟩ := hmem time htime
  exact ht c hc

/-- If the first added day is dated before the entry date, there is no trail before it is
complete. -/
theorem stopsAt_anchor_added {first : DailyCandle} (h : DayByDay (candles ++ first :: added))
    (hfirst : first.dt < utcDate trade.actualEntryTime.utc) (ht : t < first.finalAt) :
    (stopLadder (candles ++ first :: added) trade).stopsAt t = [] := by
  refine Ladder.stopsAt_of_lt (fun time htime => ?_) (stopLadder_sorted h trade)
  rcases stopLadder_times (candles ++ first :: added) trade with hnil | ⟨anchor, hanchor, hsub⟩
  · exact absurd (hnil ▸ htime) List.not_mem_nil
  · obtain ⟨i, hi⟩ := Option.ne_none_iff_exists'.mp (@anchorBefore_cons_ne_none added _ _ hfirst)
    rw [anchorBefore_append, hi] at hanchor
    obtain rfl : candles.length + i = anchor := Option.some.inj hanchor
    obtain ⟨c, hc, rfl⟩ := List.mem_map.mp (hsub.subset htime)
    rw [← List.drop_drop, List.drop_left] at hc
    rcases List.mem_cons.mp (List.mem_of_mem_drop hc) with rfl | hc
    · exact ht
    · exact ht.trans (finalAt_lt ((List.pairwise_cons.mp (List.pairwise_append.mp h).2.1).1 c hc))

/-- Nor is there one without the added days, before the candle of the last day is complete. -/
theorem stopsAt_anchor_last (h : DayByDay candles)
    (hall : ∀ c ∈ candles, c.dt < utcDate trade.actualEntryTime.utc)
    (ht : ∀ last ∈ candles.getLast?, t < last.finalAt) :
    (stopLadder candles trade).stopsAt t = [] := by
  refine Ladder.stopsAt_of_lt (fun time htime => ?_) (stopLadder_sorted h trade)
  rcases stopLadder_times candles trade with hnil | ⟨anchor, hanchor, hsub⟩
  · exact absurd (hnil ▸ htime) List.not_mem_nil
  · obtain ⟨init, last, rfl⟩ : ∃ init last, candles = init ++ [last] :=
      (List.eq_nil_or_concat' candles).resolve_left fun hnil => by
        rw [hnil] at hanchor
        cases hanchor
    obtain ⟨i, hi⟩ := Option.ne_none_iff_exists'.mp
      (@anchorBefore_cons_ne_none [] _ _ (hall last (by simp)))
    rw [anchorBefore_append, hi] at hanchor
    obtain rfl : init.length + i = anchor := Option.some.inj hanchor
    obtain ⟨c, hc, rfl⟩ := List.mem_map.mp (hsub.subset htime)
    rw [← List.drop_drop, List.drop_left] at hc
    obtain rfl := List.mem_singleton.mp (List.mem_of_mem_drop hc)
    exact ht _ (by simp)

theorem stopLadder_level (candles : List DailyCandle) (trade : AdxTrade) :
    (stopLadder candles trade).level =
      atrTrailLevel candles (utcDate trade.actualEntryTime.utc) trade.direction := by
  unfold stopLadder atrTrailLevel
  cases ha : anchorBefore candles (utcDate trade.actualEntryTime.utc) with
  | none => rw [ite_self]
  | some anchor =>
    have hne : candles ≠ [] := by
      rintro rfl
      cases ha
    dsimp only
    rw [if_pos (by decide +kernel),
      if_neg (by simpa [hne] using (by decide +kernel : 0 < atrTrailMult)),
      Ladder.level_foldl]

/-- The stops at an instant do not depend on candles that are not complete then, the trail only
tightens, and in the end it is that of `_atr_trail_level`. As the anchor is the newest candle before
the entry date, this is so once no candle before that date is missing; and `_atr_trail_level` takes
the date as it is written. -/
theorem adx_stops_causal_and_tightening (candles added : List DailyCandle)
    (h : DayByDay (candles ++ added)) (trade : AdxTrade) (fixedPct : ℚ) :
    (∀ t, (∀ first ∈ added.head?, t < first.finalAt ∧
      (utcDate trade.actualEntryTime.utc ≤ first.dt ∨
        ∀ last ∈ candles.getLast?, t < last.finalAt)) →
      stopLevelsAt (candles ++ added) trade fixedPct t = stopLevelsAt candles trade fixedPct t) ∧
    (∀ t t' level, t ≤ t' → trailOf (stopLevelsAt candles trade fixedPct t) = some level →
      ∃ level', trailOf (stopLevelsAt candles trade fixedPct t') = some level' ∧
        Tighter trade.direction level level') ∧
    (utcDate trade.actualEntryTime.written = utcDate trade.actualEntryTime.utc →
      ∀ t, (∀ c ∈ candles, c.finalAt ≤ t) → trailOf (stopLevelsAt candles trade fixedPct t) =
        atrTrailLevel candles (utcDate trade.actualEntryTime.written) trade.direction) := by
  have hcandles : DayByDay candles := (List.pairwise_append.mp h).1
  have hsorted := stopLadder_sorted hcandles trade
  refine ⟨fun t ht => ?_, fun t t' level htt' => ?_, fun hdate t ht => ?_⟩
  · cases added with
    | nil => rw [List.append_nil]
    | cons first added =>
      obtain ⟨hfirst, hanchor⟩ := ht first rfl
      have hafter : ∀ c ∈ added, first.dt < c.dt :=
        (List.pairwise_cons.mp (List.pairwise_append.mp h).2.1).1
      by_cases hentry : utcDate trade.actualEntryTime.utc ≤ first.dt
      · refine stopLevelsAt_append h trade fixedPct (fun c hc => ?_) fun c hc => ?_
        · rcases List.mem_cons.mp hc with rfl | hc
          · exact hentry
          · exact hentry.trans (le_of_lt (hafter c hc))
        · rcases List.mem_cons.mp hc with rfl | hc
          · exact hfirst
          · exact hfirst.trans (finalAt_lt (hafter c hc))
      · have hlt : first.dt < utcDate trade.actualEntryTime.utc := Int.not_le.mp hentry
        have hall : ∀ c ∈ candles, c.dt < utcDate trade.actualEntryTime.utc := fun c hc =>
          ((List.pairwise_append.mp h).2.2 c hc first List.mem_cons_self).trans hlt
        rw [stopLevelsAt, stopLevelsAt, stopsAt_anchor_added h hlt hfirst,
          stopsAt_anchor_last hcandles hall (hanchor.resolve_left hentry)]
  · exact (stopLadder_sound candles trade).trailOf_mono hsorted htt'
  · rw [hdate, ← stopLadder_level]
    refine (stopLadder_sound candles trade).trailOf_last hsorted fun time htime => ?_
    rcases stopLadder_times candles trade with hnil | ⟨anchor, -, hsub⟩
    · exact absurd (hnil ▸ htime) List.not_mem_nil
    · obtain ⟨c, hc, rfl⟩ := List.mem_map.mp (hsub.subset htime)
      exact ht c (List.mem_of_mem_drop hc)

/-- A day without a trend. -/
def flatDay (dt : Int) : DailyCandle := ⟨dt, 101, 99, 100⟩

/-- Such days from 2024-01-01 on. -/
def flatDays (n : ℕ) : List DailyCandle := (List.range n).map fun i : ℕ => flatDay (19_723 + i)

/-- A trade of the 15th of them. -/
theorem adx_stops_causal_and_tightening_january :
    DayByDay (flatDays 15 ++ [flatDay 19_738]) ∧
      stopLevelsAt (flatDays 15 ++ [flatDay 19_738])
          ⟨.long, 100, ⟨19_737 * 86_400_000_000, none⟩⟩ 10 (19_738 * 86_400_000_000) =
        stopLevelsAt (flatDays 15)
          ⟨.long, 100, ⟨19_737 * 86_400_000_000, none⟩⟩ 10 (19_738 * 86_400_000_000) :=
  ⟨by decide, (adx_stops_causal_and_tightening (flatDays 15)
    [flatDay 19_738] (by decide) ⟨.long, 100, ⟨19_737 * 86_400_000_000, none⟩⟩ 10).1 _ (by decide)⟩

/-- The days to 2024-01-15 show a trail at the end of that day, and with the days to 01-17 there is
none yet, if the entry is on 01-18. An entry that is written with the date of the next day has its
anchor a day later in `_atr_trail_level`. -/
theorem adx_stops_depend_on_later_candles :
    stopLevelsAt (flatDays 15)
        ⟨.long, 100, ⟨19_740 * 86_400_000_000, none⟩⟩ 10 (19_738 * 86_400_000_000) ≠
      stopLevelsAt (flatDays 15 ++ [flatDay 19_738, flatDay 19_739])
        ⟨.long, 100, ⟨19_740 * 86_400_000_000, none⟩⟩ 10 (19_738 * 86_400_000_000) ∧
    trailOf (stopLevelsAt (flatDays 16 ++ [⟨19_739, 101, 89, 90⟩])
        ⟨.long, 100, ⟨19_740 * 86_400_000_000 + 1_800_000_000, some 7_200_000_000⟩⟩ 10
        (19_740 * 86_400_000_000)) ≠
      atrTrailLevel (flatDays 16 ++ [⟨19_739, 101, 89, 90⟩])
        (utcDate (19_740 * 86_400_000_000 + 1_800_000_000)) .long := by
  constructor <;> decide +kernel

end P300
