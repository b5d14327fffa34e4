import P300.Regime.EmaPosition

/-!
# Which labels stay

The label of a day under a walk over the weeks: a held position labels every day from its entry on.
A cross relabels the days from the next week's date on and no others, so the labels up to the last
bar stay when bars come in exactly if no cross that was not acted on yet relabels one of these days.
-/

namespace P300

/-! ## Spreading a side over days -/

theorem get?_foldl_set {κ ν : Type} [DecidableEq κ] {key : ℕ → κ} {v : ν} (l : List ℕ)
    (pos : Dict κ ν) (d : κ) :
    (l.foldl (fun pos k => pos.set (key k) v) pos).get? d =
      if ∃ k ∈ l, key k = d then some v else pos.get? d := by
  induction l generalizing pos with
  | nil => simp
  | cons a l ih =>
    rw [List.foldl_cons, ih, Dict.get?_set]
    by_cases hl : ∃ k ∈ l, key k = d
    · obtain ⟨k, hk, hkd⟩ := hl
      rw [if_pos ⟨k, hk, hkd⟩, if_pos ⟨k, List.mem_cons_of_mem a hk, hkd⟩]
    · rw [if_neg hl]
      by_cases ha : d = key a
      · rw [if_pos ha, if_pos ⟨a, List.mem_cons_self, ha.symm⟩]
      · rw [if_neg ha, if_neg]
        rintro ⟨k, hk, hkd⟩
        rcases List.mem_cons.mp hk with rfl | hk
        · exact ha hkd.symm
        · exact hl ⟨k, hk, hkd⟩

theorem get?_spread (pos : Dict Int Int) (start stop side d : Int) :
    (spread pos start stop side).get? d =
      if start ≤ d ∧ d ≤ stop then some side else pos.get? d := by
  rw [spread, get?_foldl_set]
  have hdays : (∃ k ∈ List.range (stop + 1 - start).toNat, start + (k : Int) = d) ↔
      start ≤ d ∧ d ≤ stop := by
    constructor
    · rintro ⟨k, hk, rfl⟩
      have hk := List.mem_range.mp hk
      omega
    · rintro ⟨hstart, hstop⟩
      exact ⟨(d - start).toNat, List.mem_range.mpr (by omega), by omega⟩
  simp only [hdays]

/-! ## Weeks -/

/-- Bars in the order of their times. -/
def Chronological (hourly : List HourlyBar) : Prop := hourly.Pairwise fun a b => a.ts ≤ b.ts

theorem causal_aggregateWeekly : Causal aggregateWeekly := by
  have happend : ∀ (s : WeeklyBuckets) bar, s.out <+: (s.add bar).out := by
    intro s bar
    rw [WeeklyBuckets.add]
    split
    · exact List.prefix_append ..
    · exact List.prefix_rfl
  exact Causal.foldl happend _

theorem Chronological.le_last {hourly : List HourlyBar} (h : Chronological hourly)
    {b last : HourlyBar} (hb : b ∈ hourly) (hlast : hourly.getLast? = some last) :
    b.ts ≤ last.ts := by
  obtain ⟨init, rfl⟩ := List.getLast?_eq_some_iff.mp hlast
  rcases List.mem_append.mp hb with hb | hb
  · exact (List.pairwise_append.mp h).2.2 b hb last (List.mem_singleton_self last)
  · rw [List.mem_singleton.mp hb]

theorem timestampDate_mono {a b : Int} (h : a ≤ b) : timestampDate a ≤ timestampDate b :=
  Int.ediv_le_ediv (by decide) h

/-- The weeks so far begin on later and later dates, all before the forming week and the bars to
come. -/
structure WeeklyBuckets.InOrder (s : WeeklyBuckets) (rest : List HourlyBar) : Prop where
  chronological : Chronological (s.bucket ++ rest)
  dates : s.out.Pairwise fun w w' => w.date < w'.date
  before : ∀ w ∈ s.out, ∀ b ∈ s.bucket ++ rest, w.date < timestampDate b.ts

theorem WeeklyBuckets.InOrder.add {s : WeeklyBuckets} {bar : HourlyBar} {rest : List HourlyBar}
    (h : s.InOrder (bar :: rest)) : (s.add bar).InOrder rest := by
  rw [WeeklyBuckets.add]
  split
  · next helapsed =>
    have hfirst : s.bucket.headD bar ∈ s.bucket ++ bar :: rest := by
      cases s.bucket with
      | nil => exact List.mem_cons_self
      | cons b bucket => exact List.mem_cons_self
    have hweek : (s.bucket.headD bar).ts + 167 * 3600 ≤ bar.ts := by
      have h167 : (167 * 3600 : ℚ) ≤ ((bar.ts - (s.bucket.headD bar).ts : Int) : ℚ) := by linarith
      have hint : (167 * 3600 : Int) ≤ bar.ts - (s.bucket.headD bar).ts := by exact_mod_cast h167
      omega
    have hrest := (List.pairwise_append.mp h.chronological).2.1
    refine ⟨hrest.of_cons, List.pairwise_append.mpr ⟨h.dates, List.pairwise_singleton .., ?_⟩, ?_⟩
    · intro w hw w' hw'
      rw [List.mem_singleton.mp hw']
      exact h.before w hw _ hfirst
    · intro w hw b hb
      rcases List.mem_append.mp hw with hw | hw
      · exact h.before w hw b (List.mem_append_right _ (List.mem_cons_of_mem _ hb))
      · have hbar := List.rel_of_pairwise_cons hrest hb
        rw [List.mem_singleton.mp hw]
        simp only [timestampDate]
        omega
  · exact ⟨by simpa using h.chronological, h.dates, by simpa using h.before⟩

theorem weeklyBuckets_inOrder {hourly : List HourlyBar} (h : Chronological hourly) :
    (weeklyBuckets hourly).InOrder [] := by
  have hrun : ∀ (rest : List HourlyBar) (s : WeeklyBuckets), s.InOrder rest →
      (rest.foldl WeeklyBuckets.add s).InOrder [] := by
    intro rest
    induction rest with
    | nil => exact fun s hs => hs
    | cons bar rest ih => exact fun s hs => ih _ hs.add
  exact hrun hourly _ ⟨h, .nil, fun w hw => by cases hw⟩

/-- Later weeks begin on later dates. -/
theorem aggregateWeekly_dates {hourly : List HourlyBar} (h : Chronological hourly) {i j : ℕ}
    (hij : i < j) {w w' : WeeklyBar} (hw : (aggregateWeekly hourly)[i]? = some w)
    (hw' : (aggregateWeekly hourly)[j]? = some w') : w.date < w'.date := by
  obtain ⟨hi, rfl⟩ := List.getElem?_eq_some_iff.mp hw
  obtain ⟨hj, rfl⟩ := List.getElem?_eq_some_iff.mp hw'
  exact List.pairwise_iff_getElem.mp (weeklyBuckets_inOrder h).dates i j hi hj hij

/-! ## Crosses -/

section Walk

variable {weekly : List WeeklyBar} {fastEma slowEma : List (Option ℚ)} {s : EmaWalk} {i : ℕ}

/-- The side that a cross at week `i` asks for. -/
def crossAt (fastEma slowEma : List (Option ℚ)) (i : ℕ) : Option PositionSide :=
  match fastAbove fastEma slowEma i, fastAbove fastEma slowEma (i - 1) with
  | some true, some false => some .long
  | some false, some true => some .short
  | _, _ => none

/-- The side of the market at week `i`. -/
def marketSide (fastEma slowEma : List (Option ℚ)) (i : ℕ) : Option PositionSide :=
  (fastAbove fastEma slowEma i).map fun above => if above then .long else .short

theorem crossAt_eq_some {side : PositionSide} : crossAt fastEma slowEma i = some side ↔
    marketSide fastEma slowEma i = some side ∧
      ∃ old, marketSide fastEma slowEma (i - 1) = some old ∧ old ≠ side := by
  rw [crossAt, marketSide, marketSide]
  rcases fastAbove fastEma slowEma i with _ | _ | _ <;>
    rcases fastAbove fastEma slowEma (i - 1) with _ | _ | _ <;> cases side <;> simp

/-- Without a cross the market keeps its side. -/
theorem marketSide_of_no_cross {side : PositionSide} (hc : crossAt fastEma slowEma i = none)
    (hprev : marketSide fastEma slowEma (i - 1) = some side)
    (hsome : (marketSide fastEma slowEma i).isSome) : marketSide fastEma slowEma i = some side := by
  obtain ⟨side', hside'⟩ := Option.isSome_iff_exists.mp hsome
  by_cases h : side = side'
  · rw [hside', h]
  · rw [crossAt_eq_some.mpr ⟨hside', side, hprev, h⟩] at hc
    cases hc

/-- The walk before week `i`: the held side is the market's, it was entered at a week that the walk
has seen, and without a held position nothing was labelled. -/
structure EmaWalk.Tracks (weekly : List WeeklyBar) (fastEma slowEma : List (Option ℚ)) (i : ℕ)
    (s : EmaWalk) : Prop where
  side : ∀ held ∈ s.held, marketSide fastEma slowEma (i - 1) = some held.position
  entry : ∀ held ∈ s.held, held.entryIdx ≤ i ∧
    ∃ w, weekly[held.entryIdx]? = some w ∧ w.date = held.entryDate
  fresh : s.held = none → s.pos = .empty

theorem EmaWalk.step_of_no_cross (hc : crossAt fastEma slowEma i = none) :
    s.step weekly fastEma slowEma i = s := by
  rw [crossAt] at hc
  rw [EmaWalk.step]
  generalize fastAbove fastEma slowEma i = above at hc
  generalize fastAbove fastEma slowEma (i - 1) = prev at hc
  generalize weekly[i + 1]? = next
  rcases above with _ | _ | _ <;> rcases prev with _ | _ | _ <;> rcases next with _ | next <;>
    rcases s with ⟨pos, _ | held⟩ <;> first | rfl | simp at hc ⊢

/-- A cross closes the position held against it and enters its own at the next week's date. -/
theorem EmaWalk.step_of_cross {side : PositionSide} {next : WeeklyBar}
    (hc : crossAt fastEma slowEma i = some side) (hnext : weekly[i + 1]? = some next)
    (hs : s.Tracks weekly fastEma slowEma i) :
    s.step weekly fastEma slowEma i =
      ⟨match s.held with
        | some held => spread s.pos held.entryDate next.date held.position.label
        | none => s.pos, some ⟨side, i + 1, next.date⟩⟩ := by
  have hheld : ∀ held ∈ s.held, held.position ≠ side := by
    intro held hh
    obtain ⟨_, old, hold, hne⟩ := crossAt_eq_some.mp hc
    rw [hs.side held hh] at hold
    cases hold
    exact hne
  rw [crossAt] at hc
  rw [EmaWalk.step, hnext]
  generalize fastAbove fastEma slowEma i = above at hc
  generalize fastAbove fastEma slowEma (i - 1) = prev at hc
  rcases s with ⟨pos, _ | held⟩
  · rcases above with _ | _ | _ <;> rcases prev with _ | _ | _ <;> cases hc <;> rfl
  · have hne := hheld held rfl
    rcases above with _ | _ | _ <;> rcases prev with _ | _ | _ <;> cases hc <;>
      cases hp : held.position <;> simp_all

/-- Once both averages are there they stay. -/
def Warm (weekly : List WeeklyBar) (fastEma slowEma : List (Option ℚ)) : Prop :=
  ∀ i j, i ≤ j → j < weekly.length → (marketSide fastEma slowEma i).isSome →
    (marketSide fastEma slowEma j).isSome

theorem EmaWalk.Tracks.step (hs : s.Tracks weekly fastEma slowEma i) (hi : i + 1 < weekly.length)
    (hwarm : Warm weekly fastEma slowEma) :
    (s.step weekly fastEma slowEma i).Tracks weekly fastEma slowEma (i + 1) := by
  cases hc : crossAt fastEma slowEma i with
  | none =>
    rw [step_of_no_cross hc]
    refine ⟨fun held hheld => ?_, fun held hheld => ?_, hs.fresh⟩
    · have hprev := hs.side held hheld
      refine marketSide_of_no_cross hc hprev (hwarm (i - 1) i (by omega) (by omega) ?_)
      rw [hprev]
      rfl
    · obtain ⟨hle, hentry⟩ := hs.entry held hheld
      exact ⟨by omega, hentry⟩
  | some side =>
    rw [step_of_cross hc (List.getElem?_eq_getElem hi) hs]
    refine ⟨fun held hheld => ?_, fun held hheld => ?_, fun h => by cases h⟩
    · cases hheld
      exact (crossAt_eq_some.mp hc).1
    · cases hheld
      exact ⟨Nat.le_refl _, _, List.getElem?_eq_getElem hi, rfl⟩

/-- The label of a day if the held position is kept for good. -/
def EmaWalk.labelOn (s : EmaWalk) (d : Int) : Option Int :=
  match s.held with
  | some held => if held.entryDate ≤ d then some held.position.label else s.pos.get? d
  | none => s.pos.get? d

theorem EmaWalk.labelOn_held {held : HeldPosition} (h : s.held = some held) (d : Int) :
    s.labelOn d = if held.entryDate ≤ d then some held.position.label else s.pos.get? d := by
  rw [labelOn, h]

theorem EmaWalk.labelOn_flat (h : s.held = none) (d : Int) : s.labelOn d = s.pos.get? d := by
  rw [labelOn, h]

/-- A cross relabels the days from the next week's date on. -/
theorem EmaWalk.labelOn_step {side : PositionSide} {next : WeeklyBar}
    (hc : crossAt fastEma slowEma i = some side) (hnext : weekly[i + 1]? = some next)
    (hs : s.Tracks weekly fastEma slowEma i) (d : Int) :
    (s.step weekly fastEma slowEma i).labelOn d =
      if next.date ≤ d then some side.label else s.labelOn d := by
  rw [step_of_cross hc hnext hs, labelOn_held rfl]
  split
  · rfl
  · next hd =>
    cases hheld : s.held with
    | none => exact (labelOn_flat hheld d).symm
    | some held =>
      rw [labelOn_held hheld]
      change (spread _ _ _ _).get? d = _
      rw [get?_spread]
      by_cases hentry : held.entryDate ≤ d
      · rw [if_pos ⟨hentry, (not_le.mp hd).le⟩, if_pos hentry]
      · rw [if_neg fun h => hentry h.1, if_neg hentry]

/-! ## The whole walk -/

/-- The walk over `n` weeks from `start` on. -/
def emaWalk (weekly : List WeeklyBar) (fastEma slowEma : List (Option ℚ)) (start n : ℕ) : EmaWalk :=
  (List.range' start n).foldl (EmaWalk.step weekly fastEma slowEma) ⟨.empty, none⟩

variable {start n : ℕ}

theorem emaWalk_succ : emaWalk weekly fastEma slowEma start (n + 1) =
    (emaWalk weekly fastEma slowEma start n).step weekly fastEma slowEma (start + n) := by
  rw [emaWalk, List.range'_1_concat, List.foldl_append]
  rfl

theorem emaWalk_tracks (hwarm : Warm weekly fastEma slowEma)
    (hn : n = 0 ∨ start + n < weekly.length) :
    (emaWalk weekly fastEma slowEma start n).Tracks weekly fastEma slowEma (start + n) := by
  induction n with
  | zero => exact ⟨fun held h => (by cases h), fun held h => (by cases h), fun _ => rfl⟩
  | succ n ih =>
    have hlt : start + n + 1 < weekly.length := by omega
    rw [emaWalk_succ]
    exact (ih (by omega)).step hlt hwarm

/-- Crosses that take effect after a day leave its label. -/
theorem emaWalk_labelOn {m : ℕ} {d : Int} (hwarm : Warm weekly fastEma slowEma) (hmn : m ≤ n)
    (hn : n = 0 ∨ start + n < weekly.length)
    (hlate : ∀ i, start + m ≤ i → i < start + n → crossAt fastEma slowEma i ≠ none →
      ∀ next ∈ weekly[i + 1]?, d < next.date) :
    (emaWalk weekly fastEma slowEma start n).labelOn d =
      (emaWalk weekly fastEma slowEma start m).labelOn d := by
  induction n, hmn using Nat.le_induction with
  | base => rfl
  | succ n hmn ih =>
    have hlt : start + n + 1 < weekly.length := by omega
    rw [emaWalk_succ, ← ih (by omega) fun i hi hin => hlate i hi (by omega)]
    cases hc : crossAt fastEma slowEma (start + n) with
    | none => rw [EmaWalk.step_of_no_cross hc]
    | some side =>
      have hnext := List.getElem?_eq_getElem hlt
      have hd := hlate (start + n) (by omega) (by omega) (by rw [hc]; exact Option.some_ne_none _)
        _ hnext
      rw [EmaWalk.labelOn_step hc hnext (emaWalk_tracks hwarm (by omega)), if_neg (by omega)]

/-- Weeks without a cross leave the walk as it is. -/
theorem emaWalk_of_no_cross {m : ℕ} (hmn : m ≤ n)
    (hnone : ∀ i, start + m ≤ i → i < start + n → crossAt fastEma slowEma i = none) :
    emaWalk weekly fastEma slowEma start n = emaWalk weekly fastEma slowEma start m := by
  induction n, hmn using Nat.le_induction with
  | base => rfl
  | succ n hmn ih =>
    rw [emaWalk_succ, ih fun i hi hin => hnone i hi (by omega),
      EmaWalk.step_of_no_cross (hnone _ (by omega) (by omega))]

/-- The map labels the days up to the last bar as the walk does. -/
theorem EmaWalk.get?_finish {hourly : List HourlyBar} {last : HourlyBar} {d : Int}
    (hs : s.Tracks weekly fastEma slowEma i) (hlast : hourly.getLast? = some last)
    (hd : d ≤ timestampDate last.ts) : (s.finish hourly weekly).get? d = s.labelOn d := by
  rw [finish, hlast]
  cases hheld : s.held with
  | none => exact (labelOn_flat hheld d).symm
  | some held =>
    obtain ⟨_, w, hw, _⟩ := hs.entry held hheld
    have hne : weekly ≠ [] := List.ne_nil_of_mem (List.mem_of_getElem? hw)
    rw [List.getLast?_eq_some_getLast hne, labelOn_held hheld]
    change (spread _ _ _ _).get? d = _
    rw [get?_spread]
    by_cases hentry : held.entryDate ≤ d
    · rw [if_pos ⟨hentry, Int.le_trans hd (Int.le_max_left ..)⟩, if_pos hentry]
    · rw [if_neg fun h => hentry h.1, if_neg hentry]

end Walk

/-! ## Two runs -/

section Stable

variable {hourly more : List HourlyBar} {fast slow : ℕ}

/-- An average over the closes of the complete weeks. -/
def weeklyEma (hourly : List HourlyBar) (period : ℕ) : List (Option ℚ) :=
  emaSeries ((aggregateWeekly hourly).map (·.close)) period

/-- The crosses of the complete weeks. -/
def weeklyCrossAt (hourly : List HourlyBar) (fast slow i : ℕ) : Option PositionSide :=
  crossAt (weeklyEma hourly fast) (weeklyEma hourly slow) i

/-- The walk over all complete weeks. -/
def weeklyWalk (hourly : List HourlyBar) (fast slow n : ℕ) : EmaWalk :=
  emaWalk (aggregateWeekly hourly) (weeklyEma hourly fast) (weeklyEma hourly slow) (slow + 1) n

theorem length_weeklyEma {period : ℕ} (hp : 0 < period) :
    (weeklyEma hourly period).length = (aggregateWeekly hourly).length := by
  rw [weeklyEma, length_emaSeries hp, List.length_map]

theorem computeEmaPositionMap_eq (hfast : 0 < fast) (hslow : 0 < slow) :
    computeEmaPositionMap hourly fast slow = .ok
      ((weeklyWalk hourly fast slow ((aggregateWeekly hourly).length - 1 - (slow + 1))).finish
        hourly
        (aggregateWeekly hourly)) := by
  rw [computeEmaPositionMap]
  split
  · next hlen =>
    have hzero : (aggregateWeekly hourly).length - 1 - (slow + 1) = 0 := by omega
    rw [hzero]
    rfl
  · simp only [emaCalc_of_pos hfast, emaCalc_of_pos hslow]
    rfl

/-- Period 0 gives no map, or the empty one. -/
theorem computeEmaPositionMap_zero {pos : Dict Int Int} (hzero : fast = 0 ∨ slow = 0)
    (h : computeEmaPositionMap hourly fast slow = .ok pos) : pos = .empty := by
  rw [computeEmaPositionMap] at h
  split at h
  · cases h
    rfl
  · obtain ⟨_, hfast, h⟩ := of_bind_ok h
    obtain ⟨_, hslow, _⟩ := of_bind_ok h
    rw [emaCalc] at hfast hslow
    rcases hzero with hzero | hzero
    · rw [if_pos hzero] at hfast
      cases hfast
    · rw [if_pos hzero] at hslow
      cases hslow

theorem weekly_warm (hourly : List HourlyBar) (fast slow : ℕ) :
    Warm (aggregateWeekly hourly) (weeklyEma hourly fast) (weeklyEma hourly slow) := by
  intro i j hij hj hi
  have hkeep : ∀ {period : ℕ} {v : ℚ}, ((weeklyEma hourly period)[i]?).join = some v →
      ∃ v, ((weeklyEma hourly period)[j]?).join = some v := by
    intro period v hv
    obtain ⟨v', hv'⟩ := emaSeries_isSome hij (by rwa [List.length_map])
      ⟨v, Option.join_eq_some_iff.mp hv⟩
    exact ⟨v', Option.join_eq_some_iff.mpr hv'⟩
  rw [marketSide, Option.isSome_map, fastAbove] at hi ⊢
  obtain ⟨above, habove⟩ := Option.isSome_iff_exists.mp hi
  obtain ⟨f, hf, hrest⟩ := Option.bind_eq_some_iff.mp habove
  obtain ⟨w, hw, _⟩ := Option.bind_eq_some_iff.mp hrest
  obtain ⟨f', hf'⟩ := hkeep hf
  obtain ⟨w', hw'⟩ := hkeep hw
  rw [hf', hw']
  rfl

/-- Complete weeks and their averages stay when bars come in. -/
theorem weekly_append (hp : 0 < fast) {i : ℕ} (hi : i < (aggregateWeekly hourly).length) :
    (aggregateWeekly (hourly ++ more))[i]? = (aggregateWeekly hourly)[i]? ∧
    (weeklyEma (hourly ++ more) fast)[i]? = (weeklyEma hourly fast)[i]? := by
  have hema : Causal fun hourly => weeklyEma hourly fast :=
    (causal_emaSeries hp).comp ((Causal.map _).comp causal_aggregateWeekly)
  exact ⟨causal_aggregateWeekly.getElem? hi more,
    hema.getElem? (by rwa [length_weeklyEma hp]) more⟩

/-- The walk over the complete weeks is the beginning of the walk with more bars. -/
theorem weeklyWalk_append (hfast : 0 < fast) (hslow : 0 < slow) {n : ℕ}
    (hn : n = 0 ∨ slow + 1 + n < (aggregateWeekly hourly).length) :
    weeklyWalk (hourly ++ more) fast slow n = weeklyWalk hourly fast slow n := by
  refine List.foldl_ext _ _ _ fun s i hi => ?_
  have hi := List.mem_range'_1.mp hi
  have habove : ∀ j ≤ i, fastAbove (weeklyEma (hourly ++ more) fast)
      (weeklyEma (hourly ++ more) slow) j =
      fastAbove (weeklyEma hourly fast) (weeklyEma hourly slow) j := by
    intro j hj
    rw [fastAbove, (weekly_append hfast (by omega)).2, (weekly_append hslow (by omega)).2]
    rfl
  rw [EmaWalk.step, EmaWalk.step, habove i (Nat.le_refl i), habove (i - 1) (by omega),
    (weekly_append hfast (by omega)).1]

/-- The labels of the days up to the last bar of `hourly` are the same with `more` bars. -/
def LabelsKept (hourly more : List HourlyBar) (fast slow : ℕ) : Prop :=
  ∀ before after, computeEmaPositionMap hourly fast slow = .ok before →
    computeEmaPositionMap (hourly ++ more) fast slow = .ok after →
    ∀ last ∈ hourly.getLast?, ∀ d ≤ timestampDate last.ts, after.get? d = before.get? d

/-- A cross of the longer series that is not acted on yet takes effect after the last bar. -/
def CrossesInTime (hourly more : List HourlyBar) (fast slow : ℕ) : Prop :=
  0 < fast → 0 < slow → ∀ last ∈ hourly.getLast?, ∀ i, slow + 1 ≤ i →
    (aggregateWeekly hourly).length ≤ i + 1 → weeklyCrossAt (hourly ++ more) fast slow i ≠ none →
    ∀ next ∈ (aggregateWeekly (hourly ++ more))[i + 1]?, timestampDate last.ts < next.date

/-- A cross that takes effect in time relabels its first day. -/
theorem labelOn_of_first_cross (h : Chronological hourly)
    {i n : ℕ} {side : PositionSide} {next : WeeklyBar} (hi : slow + 1 ≤ i) (hin : i < slow + 1 + n)
    (hn : slow + 1 + n < (aggregateWeekly hourly).length)
    (hc : weeklyCrossAt hourly fast slow i = some side)
    (hnext : (aggregateWeekly hourly)[i + 1]? = some next) :
    (weeklyWalk hourly fast slow n).labelOn next.date = some side.label ∧
      (weeklyWalk hourly fast slow (i - (slow + 1))).labelOn next.date ≠ some side.label := by
  obtain ⟨k, rfl⟩ := Nat.exists_eq_add_of_le hi
  have hwarm : Warm (aggregateWeekly hourly) _ _ := weekly_warm hourly fast slow
  have htracks : (weeklyWalk hourly fast slow k).Tracks _ _ _ (slow + 1 + k) :=
    emaWalk_tracks hwarm (Or.inr (by omega))
  rw [Nat.add_sub_cancel_left]
  constructor
  · have hlate : ∀ j, slow + 1 + (k + 1) ≤ j → j < slow + 1 + n →
        crossAt (weeklyEma hourly fast) (weeklyEma hourly slow) j ≠ none →
        ∀ w ∈ (aggregateWeekly hourly)[j + 1]?, next.date < w.date :=
      fun j hj _ _ w hw => aggregateWeekly_dates h (by omega) hnext hw
    rw [weeklyWalk, emaWalk_labelOn hwarm (by omega) (Or.inr hn) hlate, emaWalk_succ]
    exact (EmaWalk.labelOn_step hc hnext htracks next.date).trans (if_pos (Int.le_refl _))
  · cases hheld : (weeklyWalk hourly fast slow k).held with
    | none =>
      rw [EmaWalk.labelOn_flat hheld, htracks.fresh hheld]
      intro heq
      cases heq
    | some held =>
      obtain ⟨hle, w, hw, hentry⟩ := htracks.entry held hheld
      have hearly := aggregateWeekly_dates h (by omega) hw hnext
      obtain ⟨_, old, hold, hne⟩ := crossAt_eq_some.mp hc
      rw [EmaWalk.labelOn_held hheld, if_pos (by omega)]
      have hside := (htracks.side held hheld).symm.trans hold
      intro heq
      cases hside
      cases hp : held.position <;> cases hs : side <;> simp_all [PositionSide.label]

/-- A cross of the longer series that the shorter one does not act on. -/
def CrossDue (hourly more : List HourlyBar) (fast slow i : ℕ) : Prop :=
  slow + 1 ≤ i ∧ (aggregateWeekly hourly).length ≤ i + 1 ∧
    i + 1 < (aggregateWeekly (hourly ++ more)).length ∧
    weeklyCrossAt (hourly ++ more) fast slow i ≠ none

theorem exists_first_crossDue (h : ∃ i, CrossDue hourly more fast slow i) :
    ∃ i, CrossDue hourly more fast slow i ∧ ∀ j < i, ¬ CrossDue hourly more fast slow j := by
  classical
  exact ⟨Nat.find h, Nat.find_spec h, fun j => Nat.find_min h⟩

/-- Up to the last bar the map is what the walk over the complete weeks leaves. -/
theorem computeEmaPositionMap_labelOn (hfast : 0 < fast) (hslow : 0 < slow)
    {last : HourlyBar} {d : Int} {pos : Dict Int Int}
    (hpos : computeEmaPositionMap hourly fast slow = .ok pos) (hlast : hourly.getLast? = some last)
    (hd : d ≤ timestampDate last.ts) : pos.get? d =
      (weeklyWalk hourly fast slow ((aggregateWeekly hourly).length - 1 - (slow + 1))).labelOn
        d := by
  rw [computeEmaPositionMap_eq hfast hslow] at hpos
  cases hpos
  exact EmaWalk.get?_finish (emaWalk_tracks (weekly_warm hourly fast slow) (by omega)) hlast hd

/-- The days up to the last bar are days up to the last bar of a longer series. -/
theorem Chronological.getLast?_append (h : Chronological (hourly ++ more)) {last : HourlyBar}
    (hlast : hourly.getLast? = some last) : ∃ last', (hourly ++ more).getLast? = some last' ∧
      timestampDate last.ts ≤ timestampDate last'.ts := by
  have hmem := List.mem_append_left more (List.mem_of_getLast? hlast)
  have hlast' := List.getLast?_eq_some_getLast (List.ne_nil_of_mem hmem)
  exact ⟨_, hlast', timestampDate_mono (h.le_last hmem hlast')⟩

/-- The first cross that the shorter series does not act on relabels its first day. -/
theorem labelOn_ne_of_first_due (h : Chronological (hourly ++ more)) (hfast : 0 < fast)
    (hslow : 0 < slow) {i : ℕ} {next : WeeklyBar} (hdue : CrossDue hourly more fast slow i)
    (hfirst : ∀ j < i, ¬ CrossDue hourly more fast slow j)
    (hnext : (aggregateWeekly (hourly ++ more))[i + 1]? = some next) :
    (weeklyWalk (hourly ++ more) fast slow
        ((aggregateWeekly (hourly ++ more)).length - 1 - (slow + 1))).labelOn next.date ≠
      (weeklyWalk hourly fast slow
        ((aggregateWeekly hourly).length - 1 - (slow + 1))).labelOn next.date := by
  obtain ⟨hi, hlate, hlen, hc⟩ := hdue
  obtain ⟨side, hside⟩ := Option.ne_none_iff_exists'.mp hc
  obtain ⟨hnew, hold⟩ := labelOn_of_first_cross h hi
    (n := (aggregateWeekly (hourly ++ more)).length - 1 - (slow + 1)) (by omega)
      (by omega) hside hnext
  have hle := causal_aggregateWeekly.length_le hourly more
  have hkeep : weeklyWalk (hourly ++ more) fast slow _ = weeklyWalk hourly fast slow
      ((aggregateWeekly hourly).length - 1 - (slow + 1)) :=
    weeklyWalk_append hfast hslow (by omega)
  -- until then the walk is the one that the shorter series ends with
  have hsame : weeklyWalk (hourly ++ more) fast slow (i - (slow + 1)) =
      weeklyWalk hourly fast slow ((aggregateWeekly hourly).length - 1 - (slow + 1)) := by
    rw [← hkeep]
    refine emaWalk_of_no_cross (by omega) fun j hj hji => ?_
    by_contra hcj
    exact hfirst j (by omega) ⟨by omega, by omega, by omega, hcj⟩
  rw [hnew, ← hsame]
  exact hold.symm

/-- The labels of the days up to the last bar stay when bars come in exactly if no cross that was
not acted on yet takes effect on one of these days. -/
theorem labels_kept_iff (h : Chronological (hourly ++ more)) :
    LabelsKept hourly more fast slow ↔ CrossesInTime hourly more fast slow := by
  by_cases hzero : fast = 0 ∨ slow = 0
  · refine iff_of_true (fun before after hb ha _ _ _ _ => ?_) fun hf hs => by omega
    rw [computeEmaPositionMap_zero hzero hb, computeEmaPositionMap_zero hzero ha]
  have hfast : 0 < fast := by omega
  have hslow : 0 < slow := by omega
  constructor
  · intro hkept _ _ last hlast i hi hdue hc next hnext
    by_contra hlate
    have hlate : next.date ≤ timestampDate last.ts := not_lt.mp hlate
    have hcross : CrossDue hourly more fast slow i :=
      ⟨hi, hdue, (List.getElem?_eq_some_iff.mp hnext).1, hc⟩
    obtain ⟨i₀, hdue₀, hfirst⟩ := exists_first_crossDue ⟨i, hcross⟩
    have hle₀ : i₀ ≤ i := Nat.le_of_not_lt fun hlt => hfirst i hlt hcross
    obtain ⟨next₀, hnext₀⟩ : ∃ w, (aggregateWeekly (hourly ++ more))[i₀ + 1]? = some w :=
      ⟨_, List.getElem?_eq_getElem hdue₀.2.2.1⟩
    have hdate₀ : next₀.date ≤ next.date := by
      rcases Nat.eq_or_lt_of_le hle₀ with rfl | hlt
      · rw [hnext₀] at hnext
        cases hnext
        exact Int.le_refl _
      · exact (aggregateWeekly_dates h (by omega) hnext₀ hnext).le
    obtain ⟨last', hlast', hll⟩ := h.getLast?_append hlast
    have hbefore : computeEmaPositionMap hourly fast slow = .ok _ :=
      computeEmaPositionMap_eq hfast hslow
    have hafter : computeEmaPositionMap (hourly ++ more) fast slow = .ok _ :=
      computeEmaPositionMap_eq hfast hslow
    have hmaps := hkept _ _ hbefore hafter last hlast next₀.date (hdate₀.trans hlate)
    rw [computeEmaPositionMap_labelOn hfast hslow hafter hlast' (hdate₀.trans (hlate.trans hll)),
      computeEmaPositionMap_labelOn hfast hslow hbefore hlast (hdate₀.trans hlate)] at hmaps
    exact labelOn_ne_of_first_due h hfast hslow hdue₀ hfirst hnext₀ hmaps
  · intro htime before after hb ha last hlast d hd
    obtain ⟨last', hlast', hll⟩ := h.getLast?_append hlast
    have hle := causal_aggregateWeekly.length_le hourly more
    have hwarm : Warm (aggregateWeekly (hourly ++ more)) _ _ := weekly_warm _ fast slow
    have hkeep : weeklyWalk (hourly ++ more) fast slow _ = weeklyWalk hourly fast slow
        ((aggregateWeekly hourly).length - 1 - (slow + 1)) :=
      weeklyWalk_append hfast hslow (by omega)
    rw [computeEmaPositionMap_labelOn hfast hslow ha hlast' (hd.trans hll),
      computeEmaPositionMap_labelOn hfast hslow hb hlast hd, ← hkeep]
    refine emaWalk_labelOn hwarm (by omega) (by omega) fun i hi _ hc next hnext => ?_
    have hnext' := htime hfast hslow last hlast i (by omega) (by omega) hc next hnext
    omega

instance : Decidable (Chronological hourly) :=
  inferInstanceAs (Decidable (hourly.Pairwise fun a b => a.ts ≤ b.ts))

end Stable

/-- The first and the last hour of week `k` after the epoch, at one price. -/
def weekBars (k : Int) (price : ℚ) : List HourlyBar :=
  [⟨604_800 * k, price, price, price, price, 1⟩,
    ⟨604_800 * k + 601_200, price, price, price, price, 1⟩]

/-- 22 weeks at 100, a week at 200, and the first hour of the week after it. -/
def risingWeeks : List HourlyBar :=
  (List.range 22).flatMap (fun k => weekBars k 100) ++ weekBars 22 200 ++ (weekBars 23 200).take 1

/-- The last hour of that week. -/
def risingWeeksEnd : List HourlyBar := (weekBars 23 200).drop 1

/-- The first day of the forming week has no label, and is long once the week is complete. -/
theorem forming_week_relabelled :
    Chronological (risingWeeks ++ risingWeeksEnd) ∧
      ¬ LabelsKept risingWeeks risingWeeksEnd 5 21 := by
  refine ⟨by decide +kernel, fun hkept => ?_⟩
  have hbefore : (computeEmaPositionMap risingWeeks 5 21).toOption.map (·.get? 161) =
      some none := by
    decide +kernel
  have hafter : (computeEmaPositionMap (risingWeeks ++ risingWeeksEnd) 5 21).toOption.map
      (·.get? 161) = some (some 1) := by
    decide +kernel
  cases hb : computeEmaPositionMap risingWeeks 5 21 with
  | error e =>
    rw [hb] at hbefore
    cases hbefore
  | ok before =>
    cases ha : computeEmaPositionMap (risingWeeks ++ risingWeeksEnd) 5 21 with
    | error e =>
      rw [ha] at hafter
      cases hafter
    | ok after =>
      rw [hb] at hbefore
      rw [ha] at hafter
      have hsame := hkept before after hb ha ⟨604_800 * 23, 200, 200, 200, 200, 1⟩ (by rfl) 161
        (by decide)
      have hnone : before.get? 161 = none := Option.some.inj hbefore
      have hlong : after.get? 161 = some 1 := Option.some.inj hafter
      rw [hsame, hnone] at hlong
      cases hlong

theorem labels_kept_iff_risingWeeks : LabelsKept risingWeeks risingWeeksEnd 5 21 ↔
    CrossesInTime risingWeeks risingWeeksEnd 5 21 :=
  labels_kept_iff (by decide +kernel)

end P300
