import Mathlib.Data.List.Sort
import P300.Regime.Classifier
import P300.Lib.Sorted

/-!
# Today's regime inputs

`jplus_inputs.today_inputs` projects the decision loop one day further: over the closes through
yesterday it classifies today and asks the gate. The research loop, run later over more data, gives
the same mode and gate to that day.
-/

namespace P300

/-! ## Weights -/

/-- `REGIME_WEIGHTS_FULL` -/
def regimeWeightsFull : Regime → List (String × ℚ)
  | .strongBull => [("ema_btc", 50 / 100), ("eth_daily", 20 / 100), ("r4_btc", 15 / 100),
      ("r4_eth", 15 / 100), ("r4_btc_v2", 75 / 1000), ("r4_eth_v2", 75 / 1000)]
  | .mildBull => [("ema_btc", 30 / 100), ("eth_daily", 10 / 100), ("r4_btc", 20 / 100),
      ("r4_eth", 30 / 100), ("r4_btc_v2", 10 / 100), ("r4_eth_v2", 15 / 100)]
  | .uncertain => [("ema_btc", 30 / 100), ("eth_daily", 0), ("r4_btc", 30 / 100),
      ("r4_eth", 40 / 100), ("r4_btc_v2", 15 / 100), ("r4_eth_v2", 20 / 100)]
  | .bear => [("ema_btc", 30 / 100), ("eth_daily", 0), ("r4_btc", 0), ("r4_eth", 0),
      ("r4_btc_v2", 0), ("r4_eth_v2", 0)]

/-- The weights of no mode. -/
def zeroWeights : List (String × ℚ) :=
  [("ema_btc", 0), ("eth_daily", 0), ("r4_btc", 0), ("r4_eth", 0), ("r4_btc_v2", 0),
    ("r4_eth_v2", 0)]

def coreAllocCap : ℚ := 1 / 2

/-- `_cap_core_weights` -/
def capCoreWeights (raw : List (String × ℚ)) : List (String × ℚ) :=
  let total := (raw.map Prod.snd).sum
  if total ≤ coreAllocCap ∨ total ≤ 0 then raw
  else
    let scale := coreAllocCap / total
    raw.map fun w => (w.1, w.2 * scale)

/-! ## The decision loop -/

/-- Of a day's record: the mode and the gate. -/
structure DecisionRow where
  mode : Regime
  gated : Bool
  deriving DecidableEq

/-- The end of the loop: what the projection into today reuses. -/
structure DecisionState where
  classifier : ClassifierState
  dates : List Int
  bc : List ℚ
  e20 : List (Option ℚ)
  e50 : List (Option ℚ)
  lsD : Dict Int ℚ

/-- `[d for d in sorted(set(btc_d.keys())) if d < clock_date]` -/
def decisionDates (btcD : Dict Int ℚ) (clockDate : Int) : List Int :=
  (btcD.keys.insertionSort (· ≤ ·)).filter fun d => d < clockDate

/-- `[btc_d[d]["c"] for d in dates]`, for dates that are keys. -/
def decisionCloses (btcD : Dict Int ℚ) (dates : List Int) : List ℚ :=
  dates.map fun d => (btcD.get? d).getD 0

/-- `_run_decision_loop`, of which the daily closes `btcD` and the ratios `lsD` are what the loaders
return at the clock `now`. -/
def runDecisionLoop (log sqrt : ℚ → ℚ) (now : Time) (btcD lsD : Dict Int ℚ) :
    Except String (Dict Int DecisionRow × DecisionState) := do
  let dates := decisionDates btcD (utcDate now)
  let bc := decisionCloses btcD dates
  let e20 ← emaCalc bc 20
  let e50 ← emaCalc bc 50
  let gateMap ← computeGateMap log sqrt dates bc
  let row (d : Int) (mode : Regime) : DecisionRow := ⟨mode, (gateMap.get? d).getD false⟩
  let (out, classifier) ← classifierLoop row bc e20 e50 lsD dates dates.length
  return (out, ⟨classifier, dates, bc, e20, e50, lsD⟩)

/-- What `today_inputs` returns, less leverage and EMA position. -/
structure TodayInputs where
  date : Int
  mode : Regime
  modePrev : Option Regime
  gated : Bool
  weights : List (String × ℚ)
  weightsPrev : List (String × ℚ)
  deriving DecidableEq

/-- `_TODAY_INPUTS_CACHE` -/
abbrev TodayCache := Option (Int × Option TodayInputs)

/-- `jplus_inputs.today_inputs`, with the cache before and after. -/
def todayInputs (log sqrt : ℚ → ℚ) (cache : TodayCache) (now : Time) (btcD lsD : Dict Int ℚ) :
    Except String (Option TodayInputs × TodayCache) := do
  let todayIso := utcDate now
  match cache.filter fun entry => entry.1 = todayIso with
  | some entry => return (entry.2, cache)
  | none =>
    let (out, state) ← runDecisionLoop log sqrt now btcD lsD
    if state.dates.length < 60 then return (none, some (todayIso, none))
    else
      let yesterdayIso := todayIso - 1
      let detI := state.dates.length - 1
      let (mode, _) ← classifyDay detI state.bc state.e20 state.e50 state.lsD state.dates
        state.classifier todayIso
      let gated ← gateForToday log sqrt state.bc
      let weights := capCoreWeights (regimeWeightsFull mode)
      let modePrev := (out.get? yesterdayIso).map (·.mode)
      let weightsPrev := capCoreWeights (modePrev.elim zeroWeights regimeWeightsFull)
      let result : TodayInputs := ⟨todayIso, mode, modePrev, gated, weights, weightsPrev⟩
      return (some result, some (todayIso, some result))

/-! ## The calendar -/

section Calendar

variable {btcD btcD' : Dict Int ℚ} {clockDate clockDate' : Int}

theorem decisionDates_sorted : (decisionDates btcD clockDate).Pairwise (· < ·) := by
  have hperm := List.perm_insertionSort (· ≤ ·) btcD.keys
  have hle : (btcD.keys.insertionSort (· ≤ ·)).Pairwise (· ≤ ·) := List.pairwise_insertionSort ..
  have hne : (btcD.keys.insertionSort (· ≤ ·)).Nodup := hperm.nodup_iff.mpr btcD.nodup
  exact ((hle.and hne).imp fun h => lt_of_le_of_ne h.1 h.2).filter _

theorem mem_decisionDates {d : Int} :
    d ∈ decisionDates btcD clockDate ↔ (btcD.get? d).isSome ∧ d < clockDate := by
  rw [decisionDates, List.mem_filter, (List.perm_insertionSort (· ≤ ·) _).mem_iff,
    Dict.mem_keys_iff, decide_eq_true_iff]

/-- The calendar of more data, read later, goes on from today's with today. -/
theorem decisionDates_extend (hclock : clockDate < clockDate')
    (hbtc : ∀ d < clockDate, btcD'.get? d = btcD.get? d) (htoday : (btcD'.get? clockDate).isSome) :
    ∃ rest, decisionDates btcD' clockDate' = decisionDates btcD clockDate ++ clockDate :: rest := by
  obtain ⟨rest, hrest⟩ := Sorted.split decisionDates_sorted
    (mem_decisionDates.mpr ⟨htoday, hclock⟩)
  have hsorted : ((decisionDates btcD' clockDate').filter fun d =>
      d < clockDate).Pairwise (· < ·) :=
    decisionDates_sorted.filter _
  have hmem : ∀ d, d ∈ (decisionDates btcD' clockDate').filter (fun d => d < clockDate) ↔
      d ∈ decisionDates btcD clockDate := by
    intro d
    rw [List.mem_filter, mem_decisionDates, mem_decisionDates, decide_eq_true_iff]
    constructor
    · rintro ⟨⟨hkey, _⟩, hd⟩
      exact ⟨hbtc d hd ▸ hkey, hd⟩
    · rintro ⟨hkey, hd⟩
      exact ⟨⟨hbtc d hd ▸ hkey, hd.trans hclock⟩, hd⟩
  have hsame : (decisionDates btcD' clockDate').filter (fun d => d < clockDate) =
      decisionDates btcD clockDate :=
    Sorted.eq_of_mem_iff hsorted decisionDates_sorted hmem
  exact ⟨rest, hsame ▸ hrest⟩

theorem decisionCloses_extend {dates rest : List Int}
    (h : ∀ d ∈ dates, btcD'.get? d = btcD.get? d) :
    decisionCloses btcD' (dates ++ rest) =
      decisionCloses btcD dates ++ decisionCloses btcD' rest := by
  rw [decisionCloses, List.map_append]
  congr 1
  exact List.map_congr_left fun d hd => by rw [h d hd]

theorem length_decisionCloses (dates : List Int) :
    (decisionCloses btcD dates).length = dates.length :=
  List.length_map ..

theorem decisionCloses_ne_zero (hpos : ∀ d < clockDate, ∀ c, btcD.get? d = some c → 0 < c) :
    ∀ c ∈ decisionCloses btcD (decisionDates btcD clockDate), c ≠ 0 := by
  intro c hc
  obtain ⟨d, hd, rfl⟩ := List.mem_map.mp hc
  obtain ⟨hkey, hlt⟩ := mem_decisionDates.mp hd
  obtain ⟨c, hc⟩ := Option.isSome_iff_exists.mp hkey
  rw [hc]
  exact (hpos d hlt c hc).ne'

end Calendar

/-! ## The live inputs are the research row's -/

section Research

variable {log sqrt : ℚ → ℚ}

/-- What a run of the decision loop has computed. -/
theorem runDecisionLoop_ok {now : Time} {btcD lsD : Dict Int ℚ} {out : Dict Int DecisionRow}
    {state : DecisionState} (h : runDecisionLoop log sqrt now btcD lsD = .ok (out, state)) :
    state.dates = decisionDates btcD (utcDate now) ∧
      state.bc = decisionCloses btcD state.dates ∧ state.lsD = lsD ∧
      state.e20 = emaSeries state.bc 20 ∧ state.e50 = emaSeries state.bc 50 ∧
      ∃ gateMap, computeGateMap log sqrt state.dates state.bc = .ok gateMap ∧
        classifierLoop (fun d mode => (⟨mode, (gateMap.get? d).getD false⟩ : DecisionRow)) state.bc
          state.e20 state.e50 lsD state.dates state.dates.length = .ok (out, state.classifier) := by
  obtain ⟨e20, he20, h⟩ := of_bind_ok h
  obtain ⟨e50, he50, h⟩ := of_bind_ok h
  rw [emaCalc_of_pos (by decide)] at he20 he50
  cases he20
  cases he50
  obtain ⟨gateMap, hgates, h⟩ := of_bind_ok h
  obtain ⟨⟨out', classifier⟩, hloop, h⟩ := of_bind_ok h
  cases h
  exact ⟨rfl, rfl, rfl, rfl, rfl, gateMap, hgates, hloop⟩

theorem runDecisionLoop_returns {now : Time} {btcD : Dict Int ℚ} (lsD : Dict Int ℚ)
    (hpos : ∀ d < utcDate now, ∀ c, btcD.get? d = some c → 0 < c) :
    ∃ out, runDecisionLoop log sqrt now btcD lsD = .ok out := by
  have hlen : (decisionDates btcD (utcDate now)).length =
      (decisionCloses btcD (decisionDates btcD (utcDate now))).length :=
        (length_decisionCloses _).symm
  obtain ⟨gateMap, hgates⟩ : ∃ gateMap, computeGateMap log sqrt _ _ = .ok gateMap :=
    computeGateMap_ok hlen
  obtain ⟨⟨out, classifier⟩, hloop⟩ : ∃ s, classifierLoop
      (fun d mode => (⟨mode, (gateMap.get? d).getD false⟩ : DecisionRow)) _ _ _ lsD _ _ = .ok s :=
    classifierLoop_ok _ (decisionCloses_ne_zero hpos) hlen
  rw [runDecisionLoop, emaCalc_of_pos (by decide), emaCalc_of_pos (by decide)]
  simp only [ok_bind, hgates, hloop]
  exact ⟨_, rfl⟩

/-- Two histories that agree before the date `today`, which both have after `n` earlier dates: the
data of today and later days may differ. -/
structure AgreeBefore (n : ℕ) (today : Int) (dates dates' : List Int) (bc bc' : List ℚ)
    (lsD lsD' : Dict Int ℚ) : Prop where
  sorted : dates.Pairwise (· < ·)
  sorted' : dates'.Pairwise (· < ·)
  calendar : dates.take (n + 1) = dates'.take (n + 1)
  isToday : dates[n]? = some today
  length : dates.length = bc.length
  length' : dates'.length = bc'.length
  closes : bc.take n = bc'.take n
  ratios : ∀ d < today, lsD.get? d = lsD'.get? d

section Agree

variable {n : ℕ} {today : Int} {dates dates' : List Int} {bc bc' : List ℚ} {lsD lsD' : Dict Int ℚ}

theorem AgreeBefore.isToday' (h : AgreeBefore n today dates dates' bc bc' lsD lsD') :
    dates'[n]? = some today := by
  have htoday := congrArg (·[n]?) h.calendar
  simpa [List.getElem?_take, h.isToday, eq_comm] using htoday

theorem AgreeBefore.sameDays (h : AgreeBefore n today dates dates' bc bc' lsD lsD') :
    SameDays n dates dates' bc bc' lsD lsD' where
  sameDates i hi := by
    have hdate := congrArg (·[i]?) h.calendar
    simpa [List.getElem?_take, show i < n + 1 by omega] using hdate
  closes := h.closes
  length := by
    have hlt := (List.getElem?_eq_some_iff.mp h.isToday).1
    have hlen := h.length
    omega
  length' := by
    have hlt := (List.getElem?_eq_some_iff.mp h.isToday').1
    have hlen := h.length'
    omega
  ratios i hi d hd := by
    obtain ⟨hlt, rfl⟩ := List.getElem?_eq_some_iff.mp hd
    obtain ⟨hn, htoday⟩ := List.getElem?_eq_some_iff.mp h.isToday
    exact h.ratios _ (htoday ▸ List.pairwise_iff_getElem.mp h.sorted i n hlt hn hi)

/-- The mode of a day is the same with other data from this day on. -/
theorem classifySeries_agree (h : AgreeBefore n today dates dates' bc bc' lsD lsD') (hn : 60 ≤ n)
    {out out' : Dict Int Regime} (hout : classifySeries dates bc lsD = .ok out)
    (hout' : classifySeries dates' bc' lsD' = .ok out') :
    ∃ mode, out.get? today = some mode ∧ out'.get? today = some mode := by
  have hrun : ∀ {dates : List Int} {bc : List ℚ} {lsD : Dict Int ℚ} {out : Dict Int Regime},
      classifySeries dates bc lsD = .ok out → ∃ s, classifierLoop (fun _ mode => mode) bc
        (emaSeries bc 20) (emaSeries bc 50) lsD dates dates.length = .ok (out, s) := by
    intro dates bc lsD out hout
    obtain ⟨e20, he20, hout⟩ := of_bind_ok hout
    obtain ⟨e50, he50, hout⟩ := of_bind_ok hout
    rw [emaCalc_of_pos (by decide)] at he20 he50
    cases he20
    cases he50
    obtain ⟨⟨out', s⟩, hloop, hpure⟩ := of_bind_ok hout
    cases hpure
    exact ⟨s, hloop⟩
  obtain ⟨s, hs⟩ := hrun hout
  obtain ⟨s', hs'⟩ := hrun hout'
  obtain ⟨_, s₀, mode, _, hbefore, hday, hrow⟩ := classifierLoop_row (h.sorted.imp ne_of_lt)
    (by omega) (List.getElem?_eq_some_iff.mp h.isToday).1 h.isToday hs
  obtain ⟨_, s₀', mode', _, hbefore', hday', hrow'⟩ := classifierLoop_row (h.sorted'.imp ne_of_lt)
    (by omega) (List.getElem?_eq_some_iff.mp h.isToday').1 h.isToday' hs'
  rw [← classifierLoop_congr h.sameDays (by omega), hbefore] at hbefore'
  cases hbefore'
  have hsame : mode = mode' := by
    have hidx : max 1 (n - 1) < n := by omega
    rw [classifyAt, index_of_some h.isToday, ok_bind] at hday
    rw [classifyAt, index_of_some h.isToday', ok_bind] at hday'
    dsimp only at hday hday'
    rw [← classifyDay_congr h.sameDays hidx] at hday'
    obtain ⟨r, hr, hpure⟩ := of_bind_ok hday
    obtain ⟨r', hr', hpure'⟩ := of_bind_ok hday'
    rw [hr] at hr'
    cases hr'
    cases hpure
    cases hpure'
    rfl
  exact ⟨mode, hrow, hsame ▸ hrow'⟩

/-- So is its gate. -/
theorem computeGateMap_agree (h : AgreeBefore n today dates dates' bc bc' lsD lsD')
    {gates gates' : Dict Int Bool} (hgates : computeGateMap log sqrt dates bc = .ok gates)
    (hgates' : computeGateMap log sqrt dates' bc' = .ok gates') :
    ∃ fired, gates.get? today = some fired ∧ gates'.get? today = some fired := by
  obtain ⟨fired, hfired, hget⟩ := get?_computeGateMap (h.sorted.imp ne_of_lt) hgates h.isToday
  obtain ⟨fired', hfired', hget'⟩ := get?_computeGateMap (h.sorted'.imp ne_of_lt) hgates' h.isToday'
  rw [← gateAt_congr h.closes h.sameDays.length h.sameDays.length', hfired] at hfired'
  cases hfired'
  exact ⟨fired, hget, hget'⟩

end Agree

/-- Today's gate is the map's over the calendar with today and any close for it. -/
theorem gateForToday_eq_map {dates : List Int} {bc : List ℚ} (hlen : dates.length = bc.length)
    (today : Int) (hdates : (dates ++ [today]).Nodup) (placeholder : ℚ) :
    ∃ fired gates, gateForToday log sqrt bc = .ok fired ∧
      computeGateMap log sqrt (dates ++ [today]) (bc ++ [placeholder]) = .ok gates ∧
      gates.get? today = some fired := by
  obtain ⟨gates, hgates⟩ : ∃ gates, computeGateMap log sqrt (dates ++ [today])
      (bc ++ [placeholder]) = .ok gates :=
    computeGateMap_ok (by rw [List.length_append, List.length_append, hlen]; rfl)
  have htoday : (dates ++ [today])[bc.length]? = some today := by
    rw [← hlen, List.getElem?_concat_length]
  obtain ⟨fired, hfired, hget⟩ := get?_computeGateMap hdates hgates htoday
  refine ⟨fired, gates, ?_, hgates, hget⟩
  have hlonger : bc.length ≤ (bc ++ [placeholder]).length := by
    rw [List.length_append]
    omega
  rw [gateForToday_eq, ← hfired]
  exact gateAt_congr (by rw [List.take_append_of_le_length (Nat.le_refl _)]) (Nat.le_refl _) hlonger

theorem classifySeries_returns {dates : List Int} {bc : List ℚ} (lsD : Dict Int ℚ)
    (hlen : dates.length = bc.length) (hbc : ∀ c ∈ bc, c ≠ 0) :
    ∃ out, classifySeries dates bc lsD = .ok out := by
  obtain ⟨⟨out, s⟩, hloop⟩ : ∃ s, classifierLoop (fun _ mode => mode) bc (emaSeries bc 20)
      (emaSeries bc 50) lsD dates dates.length = .ok s := classifierLoop_ok _ hbc hlen
  rw [classifySeries, emaCalc_of_pos (by decide), emaCalc_of_pos (by decide)]
  simp only [ok_bind, hloop]
  exact ⟨out, rfl⟩

/-- The mode and the gate of a day read no data of this day or later, and today's gate is the
map's. -/
structure ReadsNoLaterData (log sqrt : ℚ → ℚ) : Prop where
  returns : ∀ dates bc lsD, dates.length = bc.length → (∀ c ∈ bc, c ≠ 0) →
    (∃ out, classifySeries dates bc lsD = .ok out) ∧
      ∃ gates, computeGateMap log sqrt dates bc = .ok gates
  series : ∀ n today dates dates' bc bc' lsD lsD', 60 ≤ n →
    AgreeBefore n today dates dates' bc bc' lsD lsD' →
    ∀ out out', classifySeries dates bc lsD = .ok out → classifySeries dates' bc' lsD' = .ok out' →
      ∃ mode, out.get? today = some mode ∧ out'.get? today = some mode
  gates : ∀ n today dates dates' bc bc' lsD lsD', AgreeBefore n today dates dates' bc bc' lsD lsD' →
    ∀ gates gates', computeGateMap log sqrt dates bc = .ok gates →
      computeGateMap log sqrt dates' bc' = .ok gates' →
      ∃ fired, gates.get? today = some fired ∧ gates'.get? today = some fired
  gateToday : ∀ (dates : List Int) (bc : List ℚ), dates.length = bc.length → ∀ today,
    (dates ++ [today]).Nodup → ∀ placeholder, ∃ fired gates,
      gateForToday log sqrt bc = .ok fired ∧
      computeGateMap log sqrt (dates ++ [today]) (bc ++ [placeholder]) = .ok gates ∧
      gates.get? today = some fired

theorem readsNoLaterData (log sqrt : ℚ → ℚ) : ReadsNoLaterData log sqrt where
  returns _ _ lsD hlen hbc := ⟨classifySeries_returns lsD hlen hbc, computeGateMap_ok hlen⟩
  series _ _ _ _ _ _ _ _ hn h _ _ hout hout' := classifySeries_agree h hn hout hout'
  gates _ _ _ _ _ _ _ _ h _ _ hgates hgates' := computeGateMap_agree h hgates hgates'
  gateToday _ _ hlen today hdates placeholder := gateForToday_eq_map hlen today hdates placeholder

/-- Today's inputs from a cold cache. -/
theorem todayInputs_ok {now : Time} {btcD lsD : Dict Int ℚ} {cache : TodayCache}
    (hcold : ∀ entry ∈ cache, entry.1 ≠ utcDate now) {out : Dict Int DecisionRow}
    {state : DecisionState} (hrun : runDecisionLoop log sqrt now btcD lsD = .ok (out, state))
    (hwarm : 60 ≤ state.dates.length) {mode : Regime} {s : ClassifierState}
    (hday : classifyDay (state.dates.length - 1) state.bc state.e20 state.e50 state.lsD state.dates
      state.classifier (utcDate now) = .ok (mode, s))
    {gated : Bool} (hgated : gateForToday log sqrt state.bc = .ok gated) :
    ∃ r cache', todayInputs log sqrt cache now btcD lsD = .ok (some r, cache') ∧
      r.mode = mode ∧ r.gated = gated := by
  have hnone : (cache.filter fun entry => entry.1 = utcDate now) = none :=
    Option.filter_eq_none_iff.mpr fun entry hentry => by simpa using hcold entry hentry
  rw [todayInputs]
  simp only [hnone, hrun, ok_bind, if_neg (not_lt.mpr hwarm), hday, hgated]
  exact ⟨_, _, rfl, rfl, rfl⟩

/-- A history and a longer one that goes on from it. -/
theorem SameDays.extend {dates : List Int} {bc : List ℚ} {lsD lsD' : Dict Int ℚ}
    (hlen : dates.length = bc.length) (hls : ∀ d ∈ dates, lsD'.get? d = lsD.get? d)
    (later : List Int) (closes : List ℚ) :
    SameDays dates.length dates (dates ++ later) bc (bc ++ closes) lsD lsD' where
  sameDates i hi := (List.getElem?_append_left hi).symm
  closes := by rw [hlen, List.take_append_of_le_length (Nat.le_refl _)]
  length := hlen.le
  length' := by
    rw [List.length_append]
    omega
  ratios i hi d hd := (hls d (List.mem_of_getElem? hd)).symm

/-- The row that the decision loop gives to today when it runs later over more data: what the
projection from today's loop says. -/
theorem runDecisionLoop_row {now now' : Time} {btcD btcD' lsD lsD' : Dict Int ℚ}
    {out out' : Dict Int DecisionRow} {state state' : DecisionState}
    (hrun : runDecisionLoop log sqrt now btcD lsD = .ok (out, state))
    (hwarm : 60 ≤ state.dates.length) (hclock : utcDate now < utcDate now')
    (hbtc : ∀ d < utcDate now, btcD'.get? d = btcD.get? d)
    (htoday : (btcD'.get? (utcDate now)).isSome)
    (hls : ∀ d < utcDate now, lsD'.get? d = lsD.get? d)
    {mode : Regime} {s : ClassifierState} {gated : Bool}
    (hday : classifyDay (state.dates.length - 1) state.bc state.e20 state.e50 state.lsD state.dates
      state.classifier (utcDate now) = .ok (mode, s))
    (hgated : gateForToday log sqrt state.bc = .ok gated)
    (hrun' : runDecisionLoop log sqrt now' btcD' lsD' = .ok (out', state')) :
    out'.get? (utcDate now) = some ⟨mode, gated⟩ := by
  obtain ⟨hdates, hbc, rfl, he20, he50, gateMap, hgateMap, hloop⟩ := runDecisionLoop_ok hrun
  obtain ⟨rest, hrest⟩ := decisionDates_extend hclock hbtc htoday
  rw [← hdates] at hrest
  have hlen : state.dates.length = state.bc.length := by rw [hbc, length_decisionCloses]
  have hday_lt : ∀ d ∈ state.dates, d < utcDate now := fun d hd =>
    (mem_decisionDates.mp (hdates ▸ hd)).2
  have hcloses : decisionCloses btcD' (state.dates ++ utcDate now :: rest) =
      state.bc ++ decisionCloses btcD' (utcDate now :: rest) := by
    rw [hbc]
    exact decisionCloses_extend fun d hd => hbtc d (hday_lt d hd)
  have hsame : SameDays state.dates.length state.dates (state.dates ++ utcDate now :: rest) state.bc
      (state.bc ++ decisionCloses btcD' (utcDate now :: rest)) state.lsD lsD' :=
    .extend hlen (fun d hd => hls d (hday_lt d hd)) _ _
  obtain ⟨hdates', hbc', rfl, he20', he50', gateMap', hgateMap', hloop'⟩ := runDecisionLoop_ok hrun'
  rw [hrest] at hdates'
  rw [hdates', hcloses] at hbc'
  rw [hdates', hbc'] at hgateMap'
  rw [he20', he50', hdates', hbc'] at hloop'
  have hnodup : (state.dates ++ utcDate now :: rest).Nodup := by
    rw [← hrest]
    exact decisionDates_sorted.imp ne_of_lt
  have hat : (state.dates ++ utcDate now :: rest)[state.dates.length]? = some (utcDate now) := by
    rw [List.getElem?_append_right (Nat.le_refl _), Nat.sub_self]
    rfl
  have hlt := (List.getElem?_eq_some_iff.mp hat).1
  obtain ⟨_, s₀, mode', _, hbefore, hday', hrow⟩ :=
    classifierLoop_row hnodup (by omega) hlt hat hloop'
  -- the loop has the live state when it comes to today
  rw [← classifierLoop_congr hsame (by omega)] at hbefore
  rw [he20, he50] at hloop hday
  have hs₀ := classifierLoop_state (by omega) hbefore hloop
  subst hs₀
  rw [classifyAt, index_of_some hat, ok_bind] at hday'
  dsimp only at hday'
  rw [show max 1 (state.dates.length - 1) = state.dates.length - 1 by omega,
    ← classifyDay_congr hsame (by omega), hday] at hday'
  cases hday'
  obtain ⟨fired, hfired, hget⟩ := get?_computeGateMap hnodup hgateMap' hat
  rw [gateForToday_eq] at hgated
  rw [← gateAt_congr hsame.closes hsame.length hsame.length', hlen, hgated] at hfired
  cases hfired
  rw [hrow, hget]
  rfl

variable (log sqrt) in
/-- Today's inputs, and the row that the decision loop gives to today when it runs later over more
data. -/
theorem todayInputs_eq_row {now now' : Time} {btcD btcD' lsD lsD' : Dict Int ℚ} {cache : TodayCache}
    (hcold : ∀ entry ∈ cache, entry.1 ≠ utcDate now)
    (hwarm : 60 ≤ (decisionDates btcD (utcDate now)).length)
    (hpos : ∀ d < utcDate now, ∀ c, btcD.get? d = some c → 0 < c)
    (hclock : utcDate now < utcDate now')
    (hbtc : ∀ d < utcDate now, btcD'.get? d = btcD.get? d)
    (htoday : (btcD'.get? (utcDate now)).isSome)
    (hls : ∀ d < utcDate now, lsD'.get? d = lsD.get? d) :
    ∃ r cache', todayInputs log sqrt cache now btcD lsD = .ok (some r, cache') ∧
      ∀ out state, runDecisionLoop log sqrt now' btcD' lsD' = .ok (out, state) →
        out.get? (utcDate now) = some ⟨r.mode, r.gated⟩ := by
  obtain ⟨⟨out, state⟩, hrun⟩ : ∃ r, runDecisionLoop log sqrt now btcD lsD = .ok r :=
    runDecisionLoop_returns lsD hpos
  obtain ⟨hdates, hbc, -, he20, he50, -⟩ := runDecisionLoop_ok hrun
  rw [← hdates] at hwarm
  have hne : ∀ c ∈ state.bc, c ≠ 0 := by
    rw [hbc, hdates]
    exact decisionCloses_ne_zero hpos
  have hlen : state.dates.length = state.bc.length := by rw [hbc, length_decisionCloses]
  obtain ⟨⟨mode, s⟩, hday⟩ : ∃ r, classifyDay (state.dates.length - 1) state.bc state.e20 state.e50
      state.lsD state.dates state.classifier (utcDate now) = .ok r := by
    rw [he20, he50]
    exact classifyDay_ok hne (by omega) (by omega) _ _
  obtain ⟨gated, hgated⟩ : ∃ gated, gateForToday log sqrt state.bc = .ok gated := by
    rw [gateForToday_eq]
    exact gateAt_ok (length_volSeriesOf (by omega)).ge
  obtain ⟨r, cache', hr, rfl, rfl⟩ := todayInputs_ok hcold hrun hwarm hday hgated
  exact ⟨r, cache', hr, fun out' state' hrun' =>
    runDecisionLoop_row hrun hwarm hclock hbtc htoday hls hday hgated hrun'⟩

/-- The mode and the gate that `today_inputs` reports are those of the row that the decision loop
assigns to the day over any later extension of the data, and neither reads data of the day
itself. -/
theorem live_regime_is_research_row {now now' : Time} {btcD btcD' lsD lsD' : Dict Int ℚ}
    {cache : TodayCache} (hcold : ∀ entry ∈ cache, entry.1 ≠ utcDate now)
    (hwarm : 60 ≤ (decisionDates btcD (utcDate now)).length)
    (hpos : ∀ d < utcDate now, ∀ c, btcD.get? d = some c → 0 < c)
    (hclock : utcDate now < utcDate now')
    (hbtc : ∀ d < utcDate now, btcD'.get? d = btcD.get? d)
    (htoday : (btcD'.get? (utcDate now)).isSome)
    (hls : ∀ d < utcDate now, lsD'.get? d = lsD.get? d) :
    (∃ r cache', todayInputs log sqrt cache now btcD lsD = .ok (some r, cache') ∧
      ((∀ d < utcDate now', ∀ c, btcD'.get? d = some c → 0 < c) →
        ∃ out, runDecisionLoop log sqrt now' btcD' lsD' = .ok out) ∧
      ∀ out state, runDecisionLoop log sqrt now' btcD' lsD' = .ok (out, state) →
        out.get? (utcDate now) = some ⟨r.mode, r.gated⟩) ∧
      ReadsNoLaterData log sqrt := by
  obtain ⟨r, cache', hr, hrow⟩ :=
    todayInputs_eq_row log sqrt hcold hwarm hpos hclock hbtc htoday hls
  exact ⟨⟨r, cache', hr, runDecisionLoop_returns lsD', hrow⟩, readsNoLaterData log sqrt⟩

/-- Sixty days with one close. -/
def flatCloses : Dict Int ℚ := ⟨(List.range 60).map fun i => ((i : Int), 100), by decide⟩

theorem live_regime_is_research_row_flat :
    (∃ r cache', todayInputs id id none (60 * 86_400_000_000 + 5) flatCloses Dict.empty =
        .ok (some r, cache') ∧
      ((∀ d < utcDate (61 * 86_400_000_000), ∀ c, (flatCloses.set 60 90).get? d = some c → 0 < c) →
        ∃ out, runDecisionLoop id id (61 * 86_400_000_000) (flatCloses.set 60 90)
          (Dict.empty.set 60 2) = .ok out) ∧
      ∀ out state, runDecisionLoop id id (61 * 86_400_000_000) (flatCloses.set 60 90)
          (Dict.empty.set 60 2) = .ok (out, state) →
        out.get? (utcDate (60 * 86_400_000_000 + 5)) = some ⟨r.mode, r.gated⟩) ∧
      ReadsNoLaterData id id := by
  have hday : utcDate (60 * 86_400_000_000 + 5) = 60 := by decide
  refine live_regime_is_research_row (by simp) (by decide +kernel) ?_ (by decide) ?_ ?_ ?_
  · intro d _ c hc
    obtain ⟨l₁, l₂, hentries, _⟩ := List.lookup_eq_some_iff.mp hc
    have hmem : (d, c) ∈ flatCloses.entries := hentries ▸ by simp
    obtain ⟨i, _, hi⟩ := List.mem_map.mp hmem
    cases hi
    decide
  · intro d hd
    rw [hday] at hd
    rw [Dict.get?_set, if_neg (ne_of_lt hd)]
  · rw [hday, Dict.get?_set, if_pos rfl]
    rfl
  · intro d hd
    rw [hday] at hd
    rw [Dict.get?_set, if_neg (ne_of_lt hd)]

end Research

end P300
