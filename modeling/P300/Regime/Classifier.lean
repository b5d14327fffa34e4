import Mathlib.Algebra.Order.Field.Rat
import P300.Regime.Ema
import P300.Regime.Gate

/-!
# The regime classifier

`regime_jplus.classify_day` and the loops over it: `classify_series`, which keeps the modes, and
`jplus_inputs._run_decision_loop`, of whose rows the mode and the gate are kept here (returns,
leverage and the EMA position feed nothing back into these two). A date is a number of days since
the epoch; the empty `cb_until` is `none`.
-/

namespace P300

inductive Regime
  | strongBull
  | mildBull
  | uncertain
  | bear
  deriving DecidableEq, Repr

/-- `a / b` -/
def divide (a b : ℚ) : Except String ℚ := if b = 0 then .error "ZeroDivisionError" else .ok (a / b)

/-- The mode from closes and averages: the part before the overrides. -/
def baseMode (detI : ℕ) (bc : List ℚ) (e20 e50 : List (Option ℚ)) : Except String Regime :=
  if detI < 50 then .ok .uncertain
  else do
    match ← index e50 detI, ← index e20 detI with
    | some slow, some fast =>
      let close ← index bc detI
      let a50 := decide (slow < close)
      let a20 := decide (fast < close)
      let m30 := (← divide close (← index bc (detI - 30))) - 1
      let m7 := (← divide close (← index bc (detI - 7))) - 1
      if a50 ∧ 0 < m30 ∧ 0 < m7 ∧ a20 then return .strongBull
      else if a50 ∧ (0 < m30 ∨ a20) then return .mildBull
      else if ¬a50 ∧ m30 < 0 then return .bear
      else return .uncertain
    | _, _ => return .uncertain

/-- What the classifier carries from day to day. -/
structure ClassifierState where
  spotPeak : ℚ
  cbUntil : Option Int
  deriving DecidableEq

/-- `regime_jplus.classify_day` -/
def classifyDay (detI : ℕ) (bc : List ℚ) (e20 e50 : List (Option ℚ)) (lsD : Dict Int ℚ)
    (dates : List Int) (s : ClassifierState) (todayIso : Int) :
    Except String (Regime × ClassifierState) := do
  let mode ← baseMode detI bc e20 e50
  -- peak drawdown
  let close ← index bc detI
  let spotPeak := max s.spotPeak close
  let mode := if 0 < spotPeak ∧ 5 / 100 < (spotPeak - close) / spotPeak ∧
    (mode = .strongBull ∨ mode = .mildBull) then .uncertain else mode
  -- long/short circuit breaker
  let detDate ← index dates detI
  let d7 ← index dates (detI - 7)
  let cbUntil := match lsD.get? detDate, lsD.get? d7 with
    | some now, some before => if now - before < -15 then some (todayIso + 7) else s.cbUntil
    | _, _ => s.cbUntil
  let mode := if cbUntil.any fun until_ => todayIso ≤ until_ then .uncertain else mode
  return (mode, ⟨spotPeak, cbUntil⟩)

/-! ## The loop over the days -/

/-- `spot_peak = max(bc[:51]) if len(bc) > 50 else (max(bc) if bc else 0.0)`, and no circuit
breaker. -/
def classifierStart (bc : List ℚ) : ClassifierState where
  spotPeak := if 50 < bc.length then (bc.take 51).max?.getD 0 else bc.max?.getD 0
  cbUntil := none

/-- The mode of the day at place `i`. -/
def classifyAt (bc : List ℚ) (e20 e50 : List (Option ℚ)) (lsD : Dict Int ℚ) (dates : List Int)
    (s : ClassifierState) (i : ℕ) : Except String (Int × Regime × ClassifierState) := do
  let todayIso ← index dates i
  let detI := max 1 (i - 1)
  let (mode, s) ← classifyDay detI bc e20 e50 lsD dates s todayIso
  return (todayIso, mode, s)

/-- The loop over `dates[1:]` that writes a row for each date; `n` is where it stops. -/
def classifierLoop {ρ : Type} (row : Int → Regime → ρ) (bc : List ℚ) (e20 e50 : List (Option ℚ))
    (lsD : Dict Int ℚ) (dates : List Int) (n : ℕ) : Except String (Dict Int ρ × ClassifierState) :=
  (List.range' 1 (n - 1)).foldlM (fun s i => do
    let (todayIso, mode, state) ← classifyAt bc e20 e50 lsD dates s.2 i
    return (s.1.set todayIso (row todayIso mode), state)) (.empty, classifierStart bc)

/-- `regime_jplus.classify_series` -/
def classifySeries (dates : List Int) (bc : List ℚ) (lsD : Dict Int ℚ) :
    Except String (Dict Int Regime) := do
  let e20 ← emaCalc bc 20
  let e50 ← emaCalc bc 50
  let s ← classifierLoop (fun _ mode => mode) bc e20 e50 lsD dates dates.length
  return s.1

/-! ## The mode of a day reads no later data -/

/-- Two histories with the same first `n` days: dates, closes and the ratios of these dates. -/
structure SameDays (n : ℕ) (dates dates' : List Int) (bc bc' : List ℚ) (lsD lsD' : Dict Int ℚ) :
    Prop where
  sameDates : ∀ i < n, dates[i]? = dates'[i]?
  closes : bc.take n = bc'.take n
  length : n ≤ bc.length
  length' : n ≤ bc'.length
  ratios : ∀ i < n, ∀ d, dates[i]? = some d → lsD.get? d = lsD'.get? d

section SameDays

variable {n : ℕ} {dates dates' : List Int} {bc bc' : List ℚ} {lsD lsD' : Dict Int ℚ}

theorem SameDays.close (h : SameDays n dates dates' bc bc' lsD lsD') {i : ℕ} (hi : i < n) :
    index bc i = index bc' i := by
  have hi' := congrArg (·[i]?) h.closes
  refine index_congr ?_
  simpa [List.getElem?_take, hi] using hi'

theorem SameDays.ema (h : SameDays n dates dates' bc bc' lsD lsD') {period : ℕ} (hp : 0 < period)
    {i : ℕ} (hi : i < n) : index (emaSeries bc period) i = index (emaSeries bc' period) i := by
  refine index_congr ((causal_emaSeries hp).congr h.closes ?_)
  rwa [length_emaSeries hp, List.length_take_of_le h.length]

theorem classifyDay_congr (h : SameDays n dates dates' bc bc' lsD lsD') {detI : ℕ} (hd : detI < n)
    (s : ClassifierState) (todayIso : Int) :
    classifyDay detI bc (emaSeries bc 20) (emaSeries bc 50) lsD dates s todayIso =
      classifyDay detI bc' (emaSeries bc' 20) (emaSeries bc' 50) lsD' dates' s todayIso := by
  have hbase : baseMode detI bc (emaSeries bc 20) (emaSeries bc 50) =
      baseMode detI bc' (emaSeries bc' 20) (emaSeries bc' 50) := by
    simp only [baseMode, h.close hd, h.close (show detI - 30 < n by omega),
      h.close (show detI - 7 < n by omega), h.ema (show 0 < 20 by decide) hd,
      h.ema (show 0 < 50 by decide) hd]
  have hls : ∀ i < n, ∀ d, index dates i = .ok d → lsD.get? d = lsD'.get? d := by
    intro i hi d hd
    exact h.ratios i hi d (index_eq_ok hd)
  simp only [classifyDay, hbase, h.close hd, ← index_congr (h.sameDates detI hd),
    ← index_congr (h.sameDates (detI - 7) (by omega))]
  cases hdet : index dates detI with
  | error e => rfl
  | ok detDate =>
    cases hd7 : index dates (detI - 7) with
    | error e => rfl
    | ok d7 =>
      simp only [ok_bind, hls detI hd detDate hdet, hls (detI - 7) (by omega) d7 hd7]

theorem classifyAt_congr (h : SameDays n dates dates' bc bc' lsD lsD') {i : ℕ} (hi : i < n)
    (hn : 1 < n) (s : ClassifierState) :
    classifyAt bc (emaSeries bc 20) (emaSeries bc 50) lsD dates s i =
      classifyAt bc' (emaSeries bc' 20) (emaSeries bc' 50) lsD' dates' s i := by
  rw [classifyAt, classifyAt, index_congr (h.sameDates i hi)]
  congr 1
  funext todayIso
  have hday := classifyDay_congr h (show max 1 (i - 1) < n by omega) s todayIso
  simp only [hday]

end SameDays

/-! ## The state of the loop -/

section Loop

variable {ρ : Type} {row : Int → Regime → ρ} {bc : List ℚ} {e20 e50 : List (Option ℚ)}
  {lsD : Dict Int ℚ} {dates : List Int} {n : ℕ}

theorem classifierLoop_succ {out : Dict Int ρ} {s : ClassifierState} (hn : 1 ≤ n)
    (h : classifierLoop row bc e20 e50 lsD dates (n + 1) = .ok (out, s)) :
    ∃ out₀ s₀ todayIso mode, classifierLoop row bc e20 e50 lsD dates n = .ok (out₀, s₀) ∧
      classifyAt bc e20 e50 lsD dates s₀ n = .ok (todayIso, mode, s) ∧
      out = out₀.set todayIso (row todayIso mode) := by
  have hrange : List.range' 1 (n + 1 - 1) = List.range' 1 (n - 1) ++ [n] := by
    rw [show n + 1 - 1 = n - 1 + 1 by omega, List.range'_1_concat, show 1 + (n - 1) = n by omega]
  rw [classifierLoop, hrange, List.foldlM_append] at h
  obtain ⟨⟨out₀, s₀⟩, h₀, h⟩ := of_bind_ok h
  obtain ⟨_, h, hpure⟩ := of_bind_ok h
  cases hpure
  obtain ⟨⟨todayIso, mode, s'⟩, hday, h⟩ := of_bind_ok h
  cases h
  exact ⟨out₀, s₀, todayIso, mode, h₀, hday, rfl⟩

/-- The state of the loop is the same whatever rows are written. -/
theorem classifierLoop_state {ρ' : Type} {row' : Int → Regime → ρ'} {out : Dict Int ρ}
    {out' : Dict Int ρ'} {s s' : ClassifierState} (hn : 1 ≤ n)
    (h : classifierLoop row bc e20 e50 lsD dates n = .ok (out, s))
    (h' : classifierLoop row' bc e20 e50 lsD dates n = .ok (out', s')) : s = s' := by
  induction n, hn using Nat.le_induction generalizing out s out' s' with
  | base =>
    cases h
    cases h'
    rfl
  | succ n hn ih =>
    obtain ⟨_, s₀, _, _, h₀, hday, _⟩ := classifierLoop_succ hn h
    obtain ⟨_, s₀', _, _, h₀', hday', _⟩ := classifierLoop_succ hn h'
    rw [ih h₀ h₀', hday'] at hday
    cases hday
    rfl

/-- The row of a day is written from the mode that the loop's state then gives. -/
theorem classifierLoop_row {out : Dict Int ρ} {s : ClassifierState} {m : ℕ} {date : Int}
    (hdates : dates.Nodup) (hn : 1 ≤ n) (hnm : n < m) (hdate : dates[n]? = some date)
    (h : classifierLoop row bc e20 e50 lsD dates m = .ok (out, s)) :
    ∃ out₀ s₀ mode s₁, classifierLoop row bc e20 e50 lsD dates n = .ok (out₀, s₀) ∧
      classifyAt bc e20 e50 lsD dates s₀ n = .ok (date, mode, s₁) ∧
      out.get? date = some (row date mode) := by
  induction m, hnm using Nat.le_induction generalizing out s with
  | base =>
    obtain ⟨out₀, s₀, todayIso, mode, h₀, hday, rfl⟩ := classifierLoop_succ hn h
    have htoday : todayIso = date := by
      obtain ⟨today, htoday, hrest⟩ := of_bind_ok hday
      obtain ⟨_, _, hpure⟩ := of_bind_ok hrest
      rw [index_of_some hdate] at htoday
      cases htoday
      cases hpure
      rfl
    subst htoday
    exact ⟨out₀, s₀, mode, s, h₀, hday, by rw [Dict.get?_set, if_pos rfl]⟩
  | succ m hnm ih =>
    obtain ⟨out₁, s₁, todayIso, mode, h₁, hday, rfl⟩ := classifierLoop_succ (by omega) h
    have hother : date ≠ todayIso := by
      obtain ⟨today, htoday, hrest⟩ := of_bind_ok hday
      obtain ⟨_, _, hpure⟩ := of_bind_ok hrest
      cases hpure
      rintro rfl
      have hm : dates[m]? = some date := index_eq_ok htoday
      have hlt := (List.getElem?_eq_some_iff.mp hdate).1
      exact absurd ((List.getElem?_inj hlt hdates).mp (hdate.trans hm.symm)) (by omega)
    obtain ⟨out₀, s₀, mode₀, s₂, h₀, hday₀, hrow⟩ := ih h₁
    exact ⟨out₀, s₀, mode₀, s₂, h₀, hday₀, by rw [Dict.get?_set, if_neg hother, hrow]⟩

theorem classifierLoop_congr {dates' : List Int} {bc' : List ℚ} {lsD' : Dict Int ℚ}
    (h : SameDays n dates dates' bc bc' lsD lsD') (hn : 50 < n) :
    classifierLoop row bc (emaSeries bc 20) (emaSeries bc 50) lsD dates n =
      classifierLoop row bc' (emaSeries bc' 20) (emaSeries bc' 50) lsD' dates' n := by
  have hstart : classifierStart bc = classifierStart bc' := by
    have hlen := h.length
    have hlen' := h.length'
    have htake : bc.take 51 = bc'.take 51 := by
      have h51 := congrArg (List.take 51) h.closes
      rwa [List.take_take, List.take_take, min_eq_left (by omega)] at h51
    rw [classifierStart, classifierStart, if_pos (by omega), if_pos (by omega), htake]
  rw [classifierLoop, classifierLoop, hstart]
  refine foldlM_congr fun s i hi => ?_
  have hi := List.mem_range'_1.mp hi
  rw [classifyAt_congr h (by omega) (by omega)]

end Loop

/-! ## The loop returns -/

section Returns

variable {bc : List ℚ} {lsD : Dict Int ℚ} {dates : List Int}

theorem divide_ok (a : ℚ) {b : ℚ} (hb : b ≠ 0) : divide a b = .ok (a / b) := if_neg hb

theorem baseMode_ok {detI : ℕ} (hbc : ∀ c ∈ bc, c ≠ 0) (h : detI < bc.length) :
    ∃ mode, baseMode detI bc (emaSeries bc 20) (emaSeries bc 50) = .ok mode := by
  have hclose : ∀ j ≤ detI, ∃ c, index bc j = .ok c ∧ c ≠ 0 := by
    intro j hj
    obtain ⟨c, hc, hindex⟩ := index_ok (show j < bc.length by omega)
    exact ⟨c, hindex, hbc c (List.mem_of_getElem? hc)⟩
  obtain ⟨close, hc, _⟩ := hclose detI (Nat.le_refl _)
  obtain ⟨c30, hc30, hne30⟩ := hclose (detI - 30) (Nat.sub_le ..)
  obtain ⟨c7, hc7, hne7⟩ := hclose (detI - 7) (Nat.sub_le ..)
  have hema : ∀ {period : ℕ}, 0 < period → ∃ v, index (emaSeries bc period) detI = .ok v := by
    intro period hp
    obtain ⟨v, _, hv⟩ := index_ok (show detI < (emaSeries bc period).length by
      rwa [length_emaSeries hp])
    exact ⟨v, hv⟩
  obtain ⟨slow, hslow⟩ := hema (show 0 < 50 by decide)
  obtain ⟨fast, hfast⟩ := hema (show 0 < 20 by decide)
  rw [baseMode]
  split
  · exact ⟨_, rfl⟩
  · rw [hslow, hfast, ok_bind, ok_bind]
    cases slow with
    | none => exact ⟨_, rfl⟩
    | some slow =>
      cases fast with
      | none => exact ⟨_, rfl⟩
      | some fast =>
        simp only [hc, hc30, hc7, divide_ok _ hne30, divide_ok _ hne7, ok_bind]
        split
        · exact ⟨_, rfl⟩
        · split
          · exact ⟨_, rfl⟩
          · split <;> exact ⟨_, rfl⟩

theorem classifyDay_ok {detI : ℕ} (hbc : ∀ c ∈ bc, c ≠ 0) (h : detI < bc.length)
    (hdates : detI < dates.length) (s : ClassifierState) (todayIso : Int) :
    ∃ r, classifyDay detI bc (emaSeries bc 20) (emaSeries bc 50) lsD dates s todayIso = .ok r := by
  obtain ⟨mode, hmode⟩ := baseMode_ok hbc h
  obtain ⟨close, _, hclose⟩ := index_ok h
  obtain ⟨detDate, _, hdet⟩ := index_ok hdates
  obtain ⟨d7, _, hd7⟩ := index_ok (show detI - 7 < dates.length by omega)
  rw [classifyDay, hmode, hclose, hdet, hd7]
  exact ⟨_, rfl⟩

theorem classifierLoop_ok {ρ : Type} (row : Int → Regime → ρ) (hbc : ∀ c ∈ bc, c ≠ 0)
    (hlen : dates.length = bc.length) :
    ∃ s, classifierLoop row bc (emaSeries bc 20)
    (emaSeries bc 50) lsD dates dates.length = .ok s := by
  refine foldlM_ok (fun s i hi => ?_) _
  have hi := List.mem_range'_1.mp hi
  obtain ⟨todayIso, _, htoday⟩ := index_ok (show i < dates.length by omega)
  have hday : ∃ r, classifyDay (max 1 (i - 1)) bc (emaSeries bc 20) (emaSeries bc 50) lsD dates s.2
      todayIso = .ok r :=
    classifyDay_ok hbc (by omega) (by omega) s.2 todayIso
  obtain ⟨r, hr⟩ := hday
  rw [classifyAt, htoday, ok_bind]
  dsimp only
  rw [hr]
  exact ⟨_, rfl⟩

end Returns

end P300
