import Mathlib.Data.List.Chain
import Mathlib.Tactic.Ring
import P300.Regime.Classifier

/-!
# The circuit breaker on the dashboard

`_ls_circuit_breaker` of `dashboard/market.py` looks for a trigger in the last eight days; the
classifier carries the end of its breaker from day to day. A trigger holds for seven days and a
later one ends later, so what the classifier has carried from before the eight days has ended, and
over these days the two follow each other. Dates are numbers of days, and the shift is not rounded.
-/

namespace P300

/-- `_CB_SHIFT` -/
def cbShift : ℚ := -15

/-- `_CB_DAYS` -/
def cbDays : ℕ := 7

/-- The returned dictionary. -/
structure BreakerView where
  shift : Option ℚ
  active : Bool
  until_ : Option Int
  threshold : ℚ
  days : ℕ

/-- The locals of the loop. -/
structure BreakerWalk where
  until_ : Option Int := none
  latestShift : Option ℚ := none

/-- The body of the loop over `k`. -/
def BreakerWalk.step (longPctByDate : Dict Int ℚ) (today : Int) (s : BreakerWalk) (k : ℕ) :
    BreakerWalk :=
  let t := today - k
  match longPctByDate.get? (t - 1), longPctByDate.get? (t - 8) with
  | some det, some d7 =>
    let shift := det - d7
    let s := if k = 0 then { s with latestShift := some shift } else s
    if shift < cbShift then
      let cand := t + cbDays
      if s.until_.all (cand > ·) then { s with until_ := some cand } else s
    else s
  | _, _ => s

/-- `range(_CB_DAYS, -1, -1)` -/
def breakerDays : List ℕ := (List.range (cbDays + 1)).reverse

/-- `_ls_circuit_breaker` -/
def lsCircuitBreaker (longPctByDate : Dict Int ℚ) (today : Int) : BreakerView :=
  let s := breakerDays.foldl (BreakerWalk.step longPctByDate today) {}
  let active := s.until_.any (today ≤ ·)
  ⟨s.latestShift, active, if active then s.until_ else none, cbShift, cbDays⟩

/-- The run of `classify_series`: the modes, and the state that its loop ends in. -/
def classifyRun (dates : List Int) (bc : List ℚ) (lsD : Dict Int ℚ) :
    Except String (Dict Int Regime × ClassifierState) := do
  let e20 ← emaCalc bc 20
  let e50 ← emaCalc bc 50
  classifierLoop (fun _ mode => mode) bc e20 e50 lsD dates dates.length

theorem classifySeries_eq (dates : List Int) (bc : List ℚ) (lsD : Dict Int ℚ) :
    classifySeries dates bc lsD = (classifyRun dates bc lsD).map (·.1) := by
  rw [classifySeries, classifyRun]
  cases emaCalc bc 20 with
  | error e => rfl
  | ok e20 =>
    cases emaCalc bc 50 with
    | error e => rfl
    | ok e50 =>
      rw [ok_bind, ok_bind, ok_bind, ok_bind]
      cases classifierLoop (fun _ mode => mode) bc e20 e50 lsD dates dates.length <;> rfl

/-! ## A day of the classifier -/

/-- The end of the breaker after a day, from the dates of its two ratios. -/
def nextCb (lsD : Dict Int ℚ) (det d7 today : Int) (cb : Option Int) : Option Int :=
  match lsD.get? det, lsD.get? d7 with
  | some now, some before => if now - before < -15 then some (today + 7) else cb
  | _, _ => cb

section days

variable {bc : List ℚ} {e20 e50 : List (Option ℚ)} {lsD : Dict Int ℚ} {dates : List Int}
  {s s' : ClassifierState} {i n : ℕ} {today first last : Int} {mode : Regime}
    {out : Dict Int Regime}

theorem classifyAt_cb (h : classifyAt bc e20 e50 lsD dates s i = .ok (today, mode, s')) :
    dates[i]? = some today ∧ ∃ det d7, dates[max 1 (i - 1)]? = some det ∧
      dates[max 1 (i - 1) - 7]? = some d7 ∧ s'.cbUntil = nextCb lsD det d7 today s.cbUntil ∧
      ((∃ u ∈ s'.cbUntil, today ≤ u) → mode = .uncertain) := by
  obtain ⟨today', htoday, h⟩ := of_bind_ok h
  obtain ⟨⟨mode', state⟩, hday, h⟩ := of_bind_ok h
  cases h
  obtain ⟨base, hbase, hday⟩ := of_bind_ok hday
  obtain ⟨close, hclose, hday⟩ := of_bind_ok hday
  obtain ⟨det, hdet, hday⟩ := of_bind_ok hday
  obtain ⟨d7, hd7, hday⟩ := of_bind_ok hday
  cases hday
  refine ⟨index_eq_ok htoday, det, d7, index_eq_ok hdet, index_eq_ok hd7, rfl, ?_⟩
  rintro ⟨u, hu, hle⟩
  exact if_pos ((Option.any_eq_true ..).mpr ⟨u, hu, decide_eq_true hle⟩)

/-- A gap-free run of dates from `first` on. -/
theorem getElem?_of_gapFree (hdates : dates.IsChain fun d d' => d' = d + 1)
    (hfirst : dates.head? = some first) {d : Int} (hd : dates[i]? = some d) : d = first + i := by
  induction i generalizing dates first with
  | zero =>
    rw [← List.head?_eq_getElem?, hfirst] at hd
    cases hd
    exact (add_zero _).symm
  | succ i ih =>
    cases dates with
    | nil => cases hd
    | cons a dates =>
      cases hfirst
      obtain ⟨hnext, hdates⟩ := List.isChain_cons.mp hdates
      cases hhead : dates.head? with
      | none =>
        rw [List.head?_eq_none_iff.mp hhead] at hd
        cases hd
      | some b =>
        rw [ih hdates hhead hd, hnext b hhead]
        push_cast
        ring

/-- What the breaker has carried from the days before `n`. -/
theorem cbUntil_le (hdates : dates.IsChain fun d d' => d' = d + 1)
    (hfirst : dates.head? = some first) (hn : 1 ≤ n)
    (h : classifierLoop (fun _ mode => mode) bc e20 e50 lsD dates n = .ok (out, s)) :
    ∀ u ∈ s.cbUntil, u < first + n + 7 := by
  induction n, hn using Nat.le_induction generalizing out s with
  | base =>
    cases h
    exact fun u hu => by cases hu
  | succ n hn ih =>
    obtain ⟨_, s₀, todayIso, _, h₀, hday, -⟩ := classifierLoop_succ hn h
    obtain ⟨htoday, det, d7, -, -, hcb, -⟩ := classifyAt_cb hday
    have hdate := getElem?_of_gapFree hdates hfirst htoday
    intro u hu
    rw [hcb] at hu
    have hcases : u = todayIso + 7 ∨ u ∈ s₀.cbUntil := by
      unfold nextCb at hu
      split at hu
      · split at hu
        · exact .inl (Option.some.inj hu).symm
        · exact .inr hu
      · exact .inr hu
    push_cast
    rcases hcases with rfl | hold
    · omega
    · have := ih h₀ u hold
      omega

theorem take_succ_breakerDays : ∀ j < 8, breakerDays.take (j + 1) =
    breakerDays.take j ++ [7 - j] := by
  decide

/-- A day of the last eight changes the classifier's breaker as it changes the dashboard's. -/
theorem follows_step {cb : Option Int} {walk : BreakerWalk} {k : ℕ} (hk : k ≤ 7)
    (hwalk : walk.until_ = cb.filter (today ≤ ·)) (hcb : ∀ u ∈ cb, u < today - k + 7) :
    (walk.step lsD today k).until_ =
      (nextCb lsD (today - k - 1) (today - k - 8) (today - k) cb).filter (today ≤ ·) := by
  have hcand : walk.until_.all (today - k + cbDays > ·) = true := by
    rw [hwalk, Option.all_eq_true]
    intro u hu
    exact decide_eq_true (hcb u (Option.eq_some_of_filter_eq_some hu))
  have hnow : today ≤ today - k + 7 := by omega
  unfold BreakerWalk.step nextCb
  dsimp only
  cases lsD.get? (today - k - 1) with
  | none => exact hwalk
  | some det =>
    cases lsD.get? (today - k - 8) with
    | none => exact hwalk
    | some d7 =>
      have hnext : ∀ s : BreakerWalk, s.until_ = walk.until_ →
          (if det - d7 < cbShift then
              if s.until_.all (today - k + cbDays > ·)
                then { s with until_ := some (today - k + cbDays) } else s
            else s).until_ =
            (if det - d7 < -15 then some (today - k + 7) else cb).filter (today ≤ ·) := by
        intro s hs
        by_cases hshift : det - d7 < -15
        · rw [if_pos (show det - d7 < cbShift from hshift), if_pos hshift, if_pos (hs ▸ hcand)]
          exact (Option.filter_some_pos (p := fun u =>
            decide (today ≤ u)) (decide_eq_true hnow)).symm
        · rw [if_neg (show ¬ det - d7 < cbShift from hshift), if_neg hshift, hs, hwalk]
      exact hnext _ (by split <;> rfl)

/-- Over the last eight days the dashboard's loop follows the classifier's. -/
theorem breaker_follows (hdates : dates.IsChain fun d d' => d' = d + 1)
    (hfirst : dates.head? = some first) (hn : 15 ≤ n) (htoday : today = first + n) {j : ℕ}
    (hj : j ≤ 8) (h : classifierLoop (fun _ mode => mode) bc e20 e50 lsD dates (n - 7 + j) =
      .ok (out, s)) :
    ((breakerDays.take j).foldl (BreakerWalk.step lsD today) {}).until_ =
      s.cbUntil.filter (today ≤ ·) := by
  induction j generalizing out s with
  | zero =>
    refine (Option.filter_eq_none_iff.mpr fun u hu => ?_).symm
    have hold := cbUntil_le hdates hfirst (by omega) h u hu
    rw [decide_eq_true_iff]
    omega
  | succ j ih =>
    have h : classifierLoop (fun _ mode => mode) bc e20 e50 lsD dates (n - 7 + j + 1) =
      .ok (out, s) := h
    obtain ⟨_, s₀, todayIso, _, h₀, hday, -⟩ := classifierLoop_succ (by omega) h
    obtain ⟨hdate, det, d7, hdet, hd7, hcb, -⟩ := classifyAt_cb hday
    rw [max_eq_right (by omega)] at hdet hd7
    have hdate := getElem?_of_gapFree hdates hfirst hdate
    have hdet := getElem?_of_gapFree hdates hfirst hdet
    have hd7 := getElem?_of_gapFree hdates hfirst hd7
    have hk : ((7 - j : ℕ) : Int) = 7 - j := by omega
    have htodayIso : todayIso = today - ((7 - j : ℕ) : Int) := by omega
    have hdet : det = today - ((7 - j : ℕ) : Int) - 1 := by omega
    have hd7 : d7 = today - ((7 - j : ℕ) : Int) - 8 := by omega
    rw [take_succ_breakerDays j (by omega), List.foldl_append, hcb, htodayIso, hdet, hd7]
    refine follows_step (by omega) (ih (by omega) h₀) fun u hu => ?_
    have hold := cbUntil_le hdates hfirst (by omega) h₀ u hu
    omega

/-- The dashboard shows the breaker that the classifier ends with. -/
structure BreakerAgrees (view : BreakerView) (today : Int) (modes : Dict Int Regime)
    (s : ClassifierState) : Prop where
  active_iff : view.active = true ↔ ∃ u ∈ s.cbUntil, today ≤ u
  until_eq : view.active = true → view.until_ = s.cbUntil
  forced : view.active = true → modes.get? today = some .uncertain

theorem breakerAgrees_of_run (hdates : dates.IsChain fun d d' => d' = d + 1)
    (hfirst : dates.head? = some first) (hlast : dates.getLast? = some today)
    (hwarm : first + 60 ≤ today) (h : classifyRun dates bc lsD = .ok (out, s)) :
    BreakerAgrees (lsCircuitBreaker lsD today) today out s := by
  obtain ⟨e20, -, h⟩ := of_bind_ok h
  obtain ⟨e50, -, h⟩ := of_bind_ok h
  obtain ⟨n, hlen⟩ : ∃ n, dates.length = n + 1 :=
    Nat.exists_eq_succ_of_ne_zero fun hnil => by
      rw [List.length_eq_zero_iff.mp hnil] at hfirst
      cases hfirst
  have hget : dates[n]? = some today := by
    rwa [List.getLast?_eq_getElem?, hlen, Nat.add_sub_cancel] at hlast
  have htoday := getElem?_of_gapFree hdates hfirst hget
  rw [hlen] at h
  have hend : (breakerDays.foldl (BreakerWalk.step lsD today) {}).until_ =
      s.cbUntil.filter (today ≤ ·) := by
    have hfollow := breaker_follows (j := 8) hdates hfirst (by omega) htoday le_rfl
      (by rwa [show n - 7 + 8 = n + 1 by omega])
    rwa [show breakerDays.take 8 = breakerDays from rfl] at hfollow
  have hactive : (lsCircuitBreaker lsD today).active = true ↔ ∃ u ∈ s.cbUntil, today ≤ u := by
    change (breakerDays.foldl (BreakerWalk.step lsD today) {}).until_.any (today ≤ ·) = true ↔ _
    rw [hend, Option.any_eq_true]
    simp
  refine ⟨hactive, fun hon => ?_, fun hon => ?_⟩
  · have huntil : (lsCircuitBreaker lsD today).until_ =
        (breakerDays.foldl (BreakerWalk.step lsD today) {}).until_ :=
      if_pos hon
    obtain ⟨u, hu, hle⟩ := hactive.mp hon
    have hu : s.cbUntil = some u := hu
    rw [huntil, hend, hu]
    exact Option.filter_some_pos (p := fun u => decide (today ≤ u)) (decide_eq_true hle)
  · obtain ⟨_, s₀, todayIso, mode, -, hday, rfl⟩ := classifierLoop_succ (by omega) h
    obtain ⟨hdate, _, _, -, -, -, hmode⟩ := classifyAt_cb hday
    rw [hget] at hdate
    cases hdate
    rw [Dict.get?_set, if_pos rfl, hmode (hactive.mp hon)]

theorem classifyRun_ok (hbc : ∀ c ∈ bc, c ≠ 0) (hlen : dates.length = bc.length) :
    ∃ out s, classifyRun dates bc lsD = .ok (out, s) := by
  rw [classifyRun, emaCalc_of_pos (by decide), emaCalc_of_pos (by decide), ok_bind, ok_bind]
  obtain ⟨⟨out, s⟩, hrun⟩ := classifierLoop_ok (fun _ mode => mode) hbc hlen
  exact ⟨out, s, hrun⟩

/-- For a gap-free run of dates from 60 days before today or earlier through today, any ratios and
closes. The classifier returns if it has a close other than 0 for every date. -/
theorem breaker_agrees (hdates : dates.IsChain fun d d' => d' = d + 1)
    (hfirst : dates.head? = some first) (hlast : dates.getLast? = some today)
    (hwarm : first + 60 ≤ today) :
    (∀ out s, classifyRun dates bc lsD = .ok (out, s) →
      BreakerAgrees (lsCircuitBreaker lsD today) today out s) ∧
    ((∀ c ∈ bc, c ≠ 0) → dates.length = bc.length →
      ∃ out s, classifyRun dates bc lsD = .ok (out, s)) :=
  ⟨fun _ _ h => breakerAgrees_of_run hdates hfirst hlast hwarm h, classifyRun_ok⟩

end days

/-- Sixty-one days; the long share falls by 20 in the week before the fourth day from the end. -/
def fallingLongs : Dict Int ℚ := ((Dict.empty.set 20_049 (60 : ℚ)).set 20_056 40).set 20_057 41

theorem breaker_agrees_fallingLongs : ∃ modes s,
    classifyRun ((List.range 61).map fun i : ℕ => 20_000 + i) (List.replicate 61 100) fallingLongs =
      .ok (modes, s) ∧ s.cbUntil = some 20_064 ∧
        (lsCircuitBreaker fallingLongs 20_060).active = true ∧
    BreakerAgrees (lsCircuitBreaker fallingLongs 20_060) 20_060 modes s := by
  have hrun : (classifyRun ((List.range 61).map fun i : ℕ => 20_000 + i) (List.replicate 61 100)
      fallingLongs).toOption.map (fun r => r.2.cbUntil) = some (some 20_064) := by decide +kernel
  cases h : classifyRun ((List.range 61).map fun i : ℕ => 20_000 + i)
    (List.replicate 61 100) fallingLongs with
  | error e =>
    rw [h] at hrun
    cases hrun
  | ok r =>
    rw [h] at hrun
    have hdates : ((List.range 61).map fun i : ℕ => (20_000 + i : Int)).IsChain fun d d' =>
        d' = d + 1 := by
      decide +kernel
    exact ⟨r.1, r.2, rfl, Option.some.inj hrun, by decide +kernel,
      (breaker_agrees hdates rfl rfl (by decide)).1 _ _ h⟩

end P300
