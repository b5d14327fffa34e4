import Mathlib.Algebra.Order.BigOperators.Group.List
import Mathlib.Algebra.Order.Field.Basic
import Mathlib.Tactic.Linarith
import P300.Bots.Indicators

/-!
# The range of the ADX

The values of `indicators.adx` lie between 0 and 100. The first one is the mean of the directional
indices of a fixed window; where that has none, the recursion starts from `nan` and never leaves it.
-/

namespace P300

/-! ## Smoothing -/

/-- Ranges and movements are not negative. -/
structure Movement.Nonneg (m : Movement) : Prop where
  tr : 0 ≤ m.tr
  plusDM : 0 ≤ m.plusDM
  minusDM : 0 ≤ m.minusDM

section smoothing

variable {period : ℕ} {s m : Movement} {raw : List Movement}

theorem trueRange_nonneg (prev c : DailyCandle) : 0 ≤ trueRange prev c :=
  (abs_nonneg _).trans (le_max_right ..)

theorem movement_nonneg (prev c : DailyCandle) : (movement prev c).Nonneg where
  tr := trueRange_nonneg prev c
  plusDM := by
    unfold movement
    dsimp only
    split
    · next h => exact h.2.le
    · exact le_rfl
  minusDM := by
    unfold movement
    dsimp only
    split
    · next h => exact h.2.le
    · exact le_rfl

theorem sum_nonneg_of (hraw : ∀ m ∈ raw, m.Nonneg) : (Movement.sum raw).Nonneg where
  tr := List.sum_nonneg (List.forall_mem_map.mpr fun m hm => (hraw m hm).tr)
  plusDM := List.sum_nonneg (List.forall_mem_map.mpr fun m hm => (hraw m hm).plusDM)
  minusDM := List.sum_nonneg (List.forall_mem_map.mpr fun m hm => (hraw m hm).minusDM)

theorem sum_tr_pos_iff (hraw : ∀ m ∈ raw, m.Nonneg) :
    0 < (Movement.sum raw).tr ↔ ∃ m ∈ raw, 0 < m.tr := by
  induction raw with
  | nil => exact iff_of_false (lt_irrefl _) fun ⟨m, hm, _⟩ => List.not_mem_nil hm
  | cons m raw ih =>
    obtain ⟨hm, hraw⟩ := List.forall_mem_cons.mp hraw
    have hsum : (Movement.sum (m :: raw)).tr = m.tr + (Movement.sum raw).tr := List.sum_cons
    have hrest := (sum_nonneg_of hraw).tr
    rw [hsum, List.exists_mem_cons_iff, ← ih hraw]
    constructor
    · intro h
      by_contra hnone
      obtain ⟨hm', hrest'⟩ := not_or.mp hnone
      linarith
    · rintro (h | h)
      · exact add_pos_of_pos_of_nonneg h hrest
      · exact add_pos_of_nonneg_of_pos hm.tr h

/-- What a smoothed sum keeps of the one before. -/
theorem sub_div_nonneg (hp : 0 < period) {x : ℚ} (hx : 0 ≤ x) : 0 ≤ x - x / period := by
  have hone : (1 : ℚ) ≤ period := by exact_mod_cast hp
  exact sub_nonneg.mpr (div_le_self hx hone)

theorem sub_div_pos (hp : 2 ≤ period) {x : ℚ} (hx : 0 < x) : 0 < x - x / period := by
  have hone : (1 : ℚ) < period := by exact_mod_cast hp
  exact sub_pos.mpr (div_lt_self hx hone)

theorem Movement.Nonneg.smooth (hp : 0 < period) (hs : s.Nonneg) (hm : m.Nonneg) :
    (s.smooth period m).Nonneg where
  tr := add_nonneg (sub_div_nonneg hp hs.tr) hm.tr
  plusDM := add_nonneg (sub_div_nonneg hp hs.plusDM) hm.plusDM
  minusDM := add_nonneg (sub_div_nonneg hp hs.minusDM) hm.minusDM

theorem smooth_tr_pos_iff (hp : 2 ≤ period) (hs : s.Nonneg) (hm : m.Nonneg) :
    0 < (s.smooth period m).tr ↔ 0 < s.tr ∨ 0 < m.tr := by
  change 0 < s.tr - s.tr / period + m.tr ↔ _
  constructor
  · intro h
    by_contra hnone
    obtain ⟨hs', hm'⟩ := not_or.mp hnone
    have hzero : s.tr = 0 := le_antisymm (not_lt.mp hs') hs.tr
    rw [hzero, zero_div] at h
    linarith
  · rintro (h | h)
    · exact add_pos_of_pos_of_nonneg (sub_div_pos hp h) hm.tr
    · exact add_pos_of_nonneg_of_pos (sub_div_nonneg (Nat.lt_of_lt_of_le Nat.two_pos hp) hs.tr) h

/-- Once there is a range, it does not vanish. -/
theorem foldl_smooth (hp : 2 ≤ period) (hs : s.Nonneg) (hraw : ∀ m ∈ raw, m.Nonneg) :
    (raw.foldl (Movement.smooth period) s).Nonneg ∧
    (0 < (raw.foldl (Movement.smooth period) s).tr ↔ 0 < s.tr ∨ ∃ m ∈ raw, 0 < m.tr) := by
  induction raw generalizing s with
  | nil => exact ⟨hs, (or_iff_left fun ⟨m, hm, _⟩ => List.not_mem_nil hm).symm⟩
  | cons m raw ih =>
    obtain ⟨hm, hraw⟩ := List.forall_mem_cons.mp hraw
    obtain ⟨hnonneg, hpos⟩ := ih (hs.smooth (Nat.lt_of_lt_of_le Nat.two_pos hp) hm) hraw
    refine ⟨hnonneg, hpos.trans ?_⟩
    rw [smooth_tr_pos_iff hp hs hm, List.exists_mem_cons_iff, or_assoc]

end smoothing

/-! ## Directional indices -/

/-- A value, if there is one, lies between 0 and 100. -/
def Percent (o : Option ℚ) : Prop := ∀ v ∈ o, 0 ≤ v ∧ v ≤ 100

theorem percent_none : Percent none := fun v hv => by cases hv

section dx

variable {period j : ℕ} {candles : List DailyCandle} {s : Movement} {o : Option ℚ}

theorem dx_percent (hs : s.Nonneg) : Percent s.dx := by
  intro v hv
  unfold Movement.dx at hv
  split at hv
  · next hpos =>
    obtain rfl := Option.some.inj hv
    have hplus : 0 ≤ 100 * s.plusDM / s.tr :=
      div_nonneg (mul_nonneg (by norm_num) hs.plusDM) hpos.le
    have hminus : 0 ≤ 100 * s.minusDM / s.tr :=
      div_nonneg (mul_nonneg (by norm_num) hs.minusDM) hpos.le
    generalize 100 * s.plusDM / s.tr = pdi at hplus ⊢
    generalize 100 * s.minusDM / s.tr = mdi at hminus ⊢
    split
    · next hdenom =>
      have habs : |pdi - mdi| ≤ pdi + mdi := abs_le.mpr ⟨by linarith, by linarith⟩
      refine ⟨div_nonneg (mul_nonneg (by norm_num) (abs_nonneg _)) hdenom.le, ?_⟩
      rw [div_le_iff₀ hdenom]
      linarith
    · exact ⟨le_rfl, by norm_num⟩
  · cases hv

theorem raw_nonneg (candles : List DailyCandle) :
    ∀ m ∈ candles.zipWith movement candles.tail, m.Nonneg := by
  intro m hm
  obtain ⟨i, hi, rfl⟩ := List.mem_iff_getElem.mp hm
  rw [List.getElem_zipWith]
  exact movement_nonneg ..

theorem map_tr_raw (candles : List DailyCandle) :
    (candles.zipWith movement candles.tail).map (·.tr) = trueRanges candles := List.map_zipWith

/-- A directional index, from the smoothed sums of its bar. -/
theorem dxSeries_spec (hp : 2 ≤ period) (h : (dxSeries candles period)[j]? = some o) :
    Percent o ∧
    (o.isSome ↔ ∃ x ∈ (trueRanges candles).take (period + (j + 1)), 0 < x) := by
  unfold dxSeries at h
  dsimp only at h
  rw [List.getElem?_map, List.getElem?_tail, List.getElem?_scanl] at h
  split at h
  · have hraw := raw_nonneg candles
    have htake : ∀ m ∈ (candles.zipWith movement candles.tail).take period, m.Nonneg :=
      fun m hm => hraw m (List.mem_of_mem_take hm)
    have hdrop : ∀ m ∈ ((candles.zipWith movement candles.tail).drop period).take (j + 1),
        m.Nonneg :=
      fun m hm => hraw m (List.mem_of_mem_drop (List.mem_of_mem_take hm))
    obtain ⟨hnonneg, hpos⟩ := foldl_smooth hp (sum_nonneg_of htake) hdrop
    obtain rfl := Option.some.inj h
    refine ⟨dx_percent hnonneg, ?_⟩
    have hsome : ∀ s : Movement, s.dx.isSome ↔ 0 < s.tr := fun s => by
      unfold Movement.dx
      split
      · next h => exact iff_of_true rfl h
      · next h => exact iff_of_false Bool.false_ne_true h
    rw [hsome, hpos, sum_tr_pos_iff htake, ← map_tr_raw, ← List.map_take,
      List.take_add (i := period)]
    simp only [List.mem_map, List.mem_append, or_and_right, exists_or, exists_exists_and_eq_and]
  · cases h

end dx

/-! ## The index -/

/-- The ADX is a proper index: a value is between 0 and 100, and there is one wherever a directional
index was computed before. -/
structure AdxProper (candles : List DailyCandle) (period : ℕ) : Prop where
  range : ∀ o ∈ adx candles period, Percent o
  defined : ∀ i, period * 2 ≤ i → i < candles.length →
    (∃ j x, period + 1 + j ≤ i ∧ (dxSeries candles period)[j]? = some (some x)) →
    ∃ v, (adx candles period)[i]? = some (some v)

/-- There is a true range in the warm-up, or none at all. -/
def WarmedUp (candles : List DailyCandle) (period : ℕ) : Prop :=
  (∃ x ∈ (trueRanges candles).take (period * 2), 0 < x) ∨ ∀ x ∈ trueRanges candles, x = 0

section adx

variable {period : ℕ} {candles : List DailyCandle} {l : List (Option ℚ)} {seed : Option ℚ}

theorem wilder_range (hp : 0 < period) {prev x : ℚ} (hprev : 0 ≤ prev ∧ prev ≤ 100)
    (hx : 0 ≤ x ∧ x ≤ 100) :
    0 ≤ wilder period prev x ∧ wilder period prev x ≤ 100 := by
  have hpos : (0 : ℚ) < period := by exact_mod_cast hp
  have hone : (0 : ℚ) ≤ period - 1 := sub_nonneg.mpr (by exact_mod_cast hp)
  have hlow : 0 ≤ prev * (period - 1) := mul_nonneg hprev.1 hone
  have hhigh : prev * (period - 1) ≤ 100 * (period - 1) := mul_le_mul_of_nonneg_right hprev.2 hone
  rw [wilder, div_le_iff₀ hpos]
  exact ⟨div_nonneg (add_nonneg hlow hx.1) hpos.le, by linarith [hx.2]⟩

theorem mean_range {window : List ℚ} (hne : window ≠ []) (h : ∀ v ∈ window, 0 ≤ v ∧ v ≤ 100) :
    0 ≤ window.sum / window.length ∧ window.sum / window.length ≤ 100 := by
  have hpos : (0 : ℚ) < window.length := by exact_mod_cast List.length_pos_iff.mpr hne
  have hsum : window.sum ≤ window.length • (100 : ℚ) :=
    List.sum_le_card_nsmul _ _ fun v hv => (h v hv).2
  rw [nsmul_eq_mul] at hsum
  rw [div_le_iff₀ hpos]
  exact ⟨div_nonneg (List.sum_nonneg fun v hv => (h v hv).1) hpos.le, by linarith⟩

/-- All values of a recursion. -/
theorem forall_mem_scanl {P : Option ℚ → Prop} (hseed : P seed)
    (hstep : ∀ prev, P prev → ∀ dx ∈ l, P (adxStep period prev dx)) :
    ∀ o ∈ List.scanl (adxStep period) seed l, P o := by
  induction l generalizing seed with
  | nil => exact fun o ho => List.mem_singleton.mp ho ▸ hseed
  | cons dx l ih =>
    obtain ⟨hdx, hl⟩ : P (adxStep period seed dx) ∧ ∀ prev, P prev →
        ∀ dx ∈ l, P (adxStep period prev dx) :=
      ⟨hstep seed hseed dx List.mem_cons_self,
        fun prev h dx hdx => hstep prev h dx (List.mem_cons_of_mem _ hdx)⟩
    rw [List.scanl_cons]
    exact List.forall_mem_cons.mpr ⟨hseed, ih hdx hl⟩

/-- The values of the window of the first one. -/
theorem mem_window_iff {v : ℚ} : v ∈ ((dxSeries candles period).take period).reduceOption ↔
    ∃ j < period, (dxSeries candles period)[j]? = some (some v) := by
  rw [List.reduceOption_mem_iff, List.mem_iff_getElem?]
  refine exists_congr fun j => ?_
  rw [List.getElem?_take]
  split
  · next h => exact (and_iff_right h).symm
  · next h => exact iff_of_false (by simp) fun h' => h h'.1

/-- The values are exact; in floating-point arithmetic the bounds hold up to rounding. -/
theorem adx_percent (hp : 2 ≤ period) : ∀ o ∈ adx candles period, Percent o := by
  have hmissing : ∀ {n o}, o ∈ List.replicate n none → Percent o := fun ho =>
    List.eq_of_mem_replicate ho ▸ percent_none
  have hdx : ∀ {j o}, (dxSeries candles period)[j]? = some o → Percent o :=
    fun h => (dxSeries_spec hp h).1
  rw [adx]
  split
  · exact fun o ho => hmissing ho
  · intro o ho
    rcases List.mem_append.mp ho with ho | ho
    · exact hmissing ho
    · refine forall_mem_scanl (P := Percent) ?_ (fun prev hprev dx hmem v hv => ?_) o ho
      · split
        · exact percent_none
        · next hne =>
          intro v hv
          obtain rfl := Option.some.inj hv
          refine mean_range hne fun v hv => ?_
          obtain ⟨j, -, hj⟩ := mem_window_iff.mp hv
          exact hdx hj v rfl
      · obtain ⟨j, hj⟩ := List.mem_iff_getElem?.mp (List.mem_of_mem_drop hmem)
        obtain ⟨prev', hprev', hv⟩ := Option.bind_eq_some_iff.mp hv
        obtain ⟨dx', hdx', hv⟩ := Option.bind_eq_some_iff.mp hv
        obtain rfl := Option.some.inj hv
        exact wilder_range (by omega) (hprev prev' hprev') (hdx hj dx' hdx')

theorem getElem?_dxSeries {j : ℕ} (hj : period + 1 + j < candles.length) :
    ∃ o, (dxSeries candles period)[j]? = some o :=
  ⟨_, List.getElem?_eq_getElem (by rw [length_dxSeries]; omega)⟩

/-- With a true range in the warm-up, there is a value from its end on. -/
theorem adx_of_range (hp : 2 ≤ period)
    (hrange : ∃ x ∈ (trueRanges candles).take (period * 2), 0 < x)
    (hlen : ¬ candles.length < period * 2 + 1) :
    ∀ i, period * 2 ≤ i → i < candles.length → ∃ v, (adx candles period)[i]? = some (some v) := by
  have hsome : ∀ j o, period ≤ j + 1 → (dxSeries candles period)[j]? = some o → o.isSome := by
    intro j o hj ho
    obtain ⟨x, hx, hpos⟩ := hrange
    exact (dxSeries_spec hp ho).2.mpr ⟨x, List.take_subset_take_left _ (by omega) hx, hpos⟩
  obtain ⟨o, ho⟩ : ∃ o, (dxSeries candles period)[period - 1]? = some o :=
    getElem?_dxSeries (by omega)
  obtain ⟨x, rfl⟩ := Option.isSome_iff_exists.mp (hsome _ o (by omega) ho)
  have hne : ((dxSeries candles period).take period).reduceOption ≠ [] :=
    List.ne_nil_of_mem (mem_window_iff.mpr ⟨period - 1, by omega, ho⟩)
  intro i hi hlt
  obtain ⟨o, ho⟩ : ∃ o, (adx candles period)[i]? = some o :=
    ⟨_, List.getElem?_eq_getElem (by rwa [length_adx])⟩
  have hmem := ho
  rw [adx, if_neg hlen] at hmem
  dsimp only at hmem
  rw [if_neg hne, List.getElem?_append_right (by rwa [List.length_replicate])] at hmem
  have hvalue : o.isSome := by
    refine forall_mem_scanl (P := (·.isSome)) rfl (fun prev hprev dx hdx => ?_) o
      (List.mem_of_getElem? hmem)
    obtain ⟨k, hk⟩ := List.mem_iff_getElem?.mp hdx
    rw [List.getElem?_drop] at hk
    obtain ⟨x, rfl⟩ := Option.isSome_iff_exists.mp (hsome _ dx (by omega) hk)
    obtain ⟨y, rfl⟩ := Option.isSome_iff_exists.mp hprev
    rfl
  obtain ⟨v, rfl⟩ := Option.isSome_iff_exists.mp hvalue
  exact ⟨v, ho⟩

/-- Without one, there is never a value. -/
theorem adx_eq_none (hp : 2 ≤ period)
    (hrange : ¬ ∃ x ∈ (trueRanges candles).take (period * 2), 0 < x) :
    ∀ o ∈ adx candles period, o = none := by
  have hempty : ((dxSeries candles period).take period).reduceOption = [] := by
    refine List.eq_nil_iff_forall_not_mem.mpr fun v hv => ?_
    obtain ⟨j, hj, hdx⟩ := mem_window_iff.mp hv
    obtain ⟨x, hx, hpos⟩ := (dxSeries_spec hp hdx).2.mp rfl
    exact hrange ⟨x, List.take_subset_take_left _ (by omega) hx, hpos⟩
  intro o ho
  rw [adx] at ho
  split at ho
  · exact List.eq_of_mem_replicate ho
  · rcases List.mem_append.mp ho with ho | ho
    · exact List.eq_of_mem_replicate ho
    · rw [if_pos hempty] at ho
      refine forall_mem_scanl (P := (· = none)) rfl (fun prev hprev dx _ => ?_) o ho
      rw [hprev]
      rfl

/-- The ADX is a proper index just where there is a true range in the warm-up, or none at all. -/
theorem adx_proper_iff (hp : 2 ≤ period) (candles : List DailyCandle) :
    (∀ o ∈ adx candles period, Percent o) ∧
      (AdxProper candles period ↔ WarmedUp candles period) := by
  have hnonneg : ∀ x ∈ trueRanges candles, 0 ≤ x := fun x hx => by
    rw [← map_tr_raw] at hx
    obtain ⟨m, hm, rfl⟩ := List.mem_map.mp hx
    exact (raw_nonneg candles m hm).tr
  refine ⟨adx_percent hp, fun H => ?_, fun hwarm => ⟨adx_percent hp, fun i hi hlt hdx => ?_⟩⟩
  · by_contra hcold
    obtain ⟨hrange, hsome⟩ := not_or.mp hcold
    obtain ⟨x, hx⟩ := not_forall.mp hsome
    obtain ⟨hx, hne⟩ := Classical.not_imp.mp hx
    have hpos : 0 < x := lt_of_le_of_ne (hnonneg x hx) (Ne.symm hne)
    obtain ⟨k, hk⟩ := List.mem_iff_getElem?.mp hx
    have htake : ∀ n, k < n → x ∈ (trueRanges candles).take n := fun n hn =>
      List.mem_of_getElem? ((List.getElem?_take_of_lt hn).trans hk)
    have hwarmup : period * 2 ≤ k := not_lt.mp fun h => hrange ⟨x, htake _ h, hpos⟩
    have hlt : k < candles.length - 1 :=
      length_trueRanges candles ▸ (List.getElem?_eq_some_iff.mp hk).1
    -- the directional index of the bar of that range
    obtain ⟨o, ho⟩ : ∃ o, (dxSeries candles period)[k - period]? = some o :=
      getElem?_dxSeries (by omega)
    have hdx : o.isSome := (dxSeries_spec hp ho).2.mpr ⟨x, htake _ (by omega), hpos⟩
    obtain ⟨v, rfl⟩ := Option.isSome_iff_exists.mp hdx
    obtain ⟨w, hw⟩ := H.defined (k + 1) (by omega) (by omega) ⟨k - period, v, by omega, ho⟩
    cases adx_eq_none hp hrange _ (List.mem_of_getElem? hw)
  · obtain ⟨j, v, -, hj⟩ := hdx
    rcases hwarm with hrange | hzero
    · exact adx_of_range hp hrange (by omega) i hi hlt
    · obtain ⟨x, hx, hpos⟩ := (dxSeries_spec hp hj).2.mp rfl
      exact absurd (hzero x (List.mem_of_mem_take hx)) hpos.ne'

/-- Five candles at one price, and a rally. -/
def flatStart : List DailyCandle :=
  (List.range 5).map (fun i : ℕ => ⟨i, 10, 10, 10⟩) ++ [⟨5, 12, 10, 11⟩]

theorem adx_proper_iff_flatStart :
    (∀ o ∈ adx flatStart 2, Percent o) ∧ (AdxProper flatStart 2 ↔ WarmedUp flatStart 2) :=
  adx_proper_iff (by decide) flatStart

theorem adx_flatStart : (∀ c ∈ flatStart, c.low ≤ c.high) ∧
    (dxSeries flatStart 2)[2]? = some (some 100) ∧
    adx flatStart 2 = List.replicate 6 none ∧ ¬ AdxProper flatStart 2 := by
  have hdx : (dxSeries flatStart 2)[2]? = some (some 100) := by decide +kernel
  have hadx : adx flatStart 2 = List.replicate 6 none := by decide +kernel
  refine ⟨by decide +kernel, hdx, hadx, fun H => ?_⟩
  obtain ⟨v, hv⟩ := H.defined 5 (by decide) (by decide) ⟨2, 100, by decide, hdx⟩
  rw [hadx] at hv
  cases hv

end adx

end P300
