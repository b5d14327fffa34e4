import Mathlib.Algebra.BigOperators.Ring.List
import Mathlib.Algebra.Order.BigOperators.Group.List
import Mathlib.Algebra.Order.Field.Basic
import Mathlib.Algebra.Order.Ring.Rat
import Mathlib.Data.List.Defs
import Mathlib.Tactic.NormNum
import Mathlib.Tactic.Positivity
import Mathlib.Tactic.Ring
import P300.Basic
import P300.Lib.Suffixes

/-!
# Online change points

`init_state` and `bocpd_step` of `studies/lib/validation/changepoint.py`. The state has five
parallel arrays over the run length: the posterior of the run length, and the four parameters of a
Normal-Inverse-Gamma distribution. Numbers are those of an ordered field; the density of the
prediction is a parameter.
-/

namespace P300

/-- The parameters of a Normal-Inverse-Gamma distribution. -/
structure Gaussian (K : Type) where
  mu : K
  kappa : K
  alpha : K
  beta : K

structure BocpdState (K : Type) where
  mu : List K
  kappa : List K
  alpha : List K
  beta : List K
  R : List K
  hazard : K
  maxRun : ℕ
  prior : Gaussian K
  t : ℕ

section model

variable {K : Type} [Field K] [LinearOrder K]

/-- `DEFAULT_PRIOR` -/
def defaultPrior : Gaussian K := ⟨0, 1 / 100, 1, 1 / 100⟩

/-- `init_state` -/
def initState (hazard : K) (prior : Option (Gaussian K)) (maxRun : ℕ) : BocpdState K :=
  let p := prior.getD defaultPrior
  ⟨[p.mu], [p.kappa], [p.alpha], [p.beta], [1], hazard, maxRun, p, 0⟩

/-- `beta * (kappa + 1) / (alpha * kappa)` -/
def BocpdState.scale2 (s : BocpdState K) : List K :=
  List.zipWith (· / ·) (List.zipWith (fun b k => b * (k + 1)) s.beta s.kappa)
    (List.zipWith (· * ·) s.alpha s.kappa)

/-- The predictive densities of an observation: `pdf x df loc scale2` has the square of the
scale. -/
def BocpdState.densities (pdf : K → K → K → K → K) (s : BocpdState K) (x : K) : List K :=
  List.zipWith3 (pdf x) (s.alpha.map (2 * ·)) s.mu s.scale2

/-- `new_R / Z`, or all of it on a fresh run. -/
def rescale (newR : List K) : List K :=
  if newR.sum > 0 then newR.map (· / newR.sum) else 1 :: newR.tail.map fun _ => 0

/-- The new posterior before the truncation, from the likelihoods `pi`. -/
def BocpdState.newR (s : BocpdState K) (pi : List K) : List K :=
  let weights := List.zipWith (· * ·) s.R pi
  let growth := weights.map (· * (1 - s.hazard))
  let cp := (weights.map (· * s.hazard)).sum
  rescale (cp :: growth)

/-- The truncation of the posterior. -/
def truncateR (maxRun : ℕ) (newR : List K) : List K :=
  if newR.length > maxRun then
    let newR := newR.take maxRun
    if newR.sum > 0 then newR.map (· / newR.sum) else newR
  else newR

/-- `bocpd_step`; the densities are divided by the largest one. -/
def bocpdStep (pdf : K → K → K → K → K) (s : BocpdState K) (x : K) : Except String (BocpdState K) :=
  let densities := s.densities pdf x
  match densities.max? with
  | none => .error "ValueError"
  | some best =>
    let newR := s.newR (densities.map (· / best))
    let newMu := s.prior.mu :: List.zipWith (fun k m => (k * m + x) / (k + 1)) s.kappa s.mu
    let newKappa := s.prior.kappa :: s.kappa.map (· + 1)
    let newAlpha := s.prior.alpha :: s.alpha.map (· + 1 / 2)
    let newBeta := s.prior.beta :: List.zipWith (· + ·) s.beta
      (List.zipWith (fun k m => k * (x - m) ^ 2 / (2 * (k + 1))) s.kappa s.mu)
    let cut (stat : List K) := if newR.length > s.maxRun then stat.take s.maxRun else stat
    .ok
      { s with
        mu := cut newMu
        kappa := cut newKappa
        alpha := cut newAlpha
        beta := cut newBeta
        R := truncateR s.maxRun newR
        t := s.t + 1 }

/-- The steps of `run_series`. -/
def bocpdRun (pdf : K → K → K → K → K) (s : BocpdState K) (xs : List K) :
    Except String (BocpdState K) :=
  xs.foldlM (bocpdStep pdf) s

/-- The parameters after one more observation. -/
def Gaussian.update (p : Gaussian K) (x : K) : Gaussian K where
  mu := (p.kappa * p.mu + x) / (p.kappa + 1)
  kappa := p.kappa + 1
  alpha := p.alpha + 1 / 2
  beta := p.beta + p.kappa * (x - p.mu) ^ 2 / (2 * (p.kappa + 1))

/-- A distribution that can be updated. -/
structure Gaussian.Valid (p : Gaussian K) : Prop where
  kappa : 0 < p.kappa
  alpha : 0 < p.alpha
  beta : 0 < p.beta

/-- What holds of the state after some observations. -/
structure Posterior (prior : Gaussian K) (maxRun : ℕ) (xs : List K) (s : BocpdState K) : Prop where
  t : s.t = xs.length
  length : s.R.length = min (s.t + 1) maxRun ∧ s.mu.length = min (s.t + 1) maxRun ∧
    s.kappa.length = min (s.t + 1) maxRun ∧ s.alpha.length = min (s.t + 1) maxRun ∧
    s.beta.length = min (s.t + 1) maxRun
  nonneg : ∀ p ∈ s.R, 0 ≤ p
  sum : s.R.sum = 1
  positive : (∀ k ∈ s.kappa, 0 < k) ∧ (∀ a ∈ s.alpha, 0 < a) ∧ ∀ b ∈ s.beta, 0 < b
  stats : ∀ r < min (s.t + 1) maxRun, let p := (xs.drop (xs.length - r)).foldl Gaussian.update prior
    s.mu[r]? = some p.mu ∧ s.kappa[r]? = some p.kappa ∧ s.alpha[r]? = some p.alpha ∧
      s.beta[r]? = some p.beta

end model

/-! ## The posterior of the run length -/

section weights

variable {K : Type} [Field K] {l pi : List K} {maxRun : ℕ}

theorem sum_map_div (l : List K) (c : K) : (l.map (· / c)).sum = l.sum / c := by
  simp only [div_eq_mul_inv, List.sum_map_mul_right, List.map_id']

/-- Growth and change point share out the weights. -/
theorem sum_growth (w : List K) (h : K) :
    ((w.map (· * h)).sum :: w.map (· * (1 - h))).sum = w.sum := by
  rw [List.sum_cons, List.sum_map_mul_right, List.sum_map_mul_right, List.map_id']
  ring

variable [LinearOrder K] [IsStrictOrderedRing K]

/-- Probabilities that add up to 1. -/
structure IsDist (l : List K) : Prop where
  nonneg : ∀ p ∈ l, 0 ≤ p
  sum : l.sum = 1

theorem isDist_map_div (hnonneg : ∀ p ∈ l, 0 ≤ p) (hpos : 0 < l.sum) :
    IsDist (l.map (· / l.sum)) where
  nonneg := List.forall_mem_map.mpr fun p hp => div_nonneg (hnonneg p hp) hpos.le
  sum := (sum_map_div l l.sum).trans (div_self hpos.ne')

/-- A sum of products with positive factors. -/
theorem sum_zipWith_pos (hlen : l.length = pi.length) (hnonneg : ∀ p ∈ l, 0 ≤ p)
    (hpi : ∀ p ∈ pi, 0 < p) :
    (∀ w ∈ List.zipWith (· * ·) l pi, 0 ≤ w) ∧
      (0 < l.sum → 0 < (List.zipWith (· * ·) l pi).sum) := by
  induction l generalizing pi with
  | nil => exact ⟨fun w hw => (List.not_mem_nil hw).elim, fun h => (lt_irrefl _ h).elim⟩
  | cons a l ih =>
    cases pi with
    | nil => cases hlen
    | cons b pi =>
      obtain ⟨ha, hnonneg⟩ := List.forall_mem_cons.mp hnonneg
      obtain ⟨hb, hpi⟩ := List.forall_mem_cons.mp hpi
      obtain ⟨hrest, hsum⟩ := ih (Nat.succ_inj.mp hlen) hnonneg hpi
      rw [List.zipWith_cons_cons, List.sum_cons, List.sum_cons]
      refine ⟨List.forall_mem_cons.mpr ⟨mul_nonneg ha hb.le, hrest⟩, fun hpos => ?_⟩
      rcases ha.eq_or_lt with rfl | ha
      · rw [zero_mul, zero_add]
        exact hsum (by rwa [zero_add] at hpos)
      · exact add_pos_of_pos_of_nonneg (mul_pos ha hb) (List.sum_nonneg hrest)

/-- The new posterior is a distribution, and a fresh run is possible. -/
theorem newR_spec {s : BocpdState K} (hR : IsDist s.R) (h0 : 0 < s.hazard) (h1 : s.hazard < 1)
    (hlen : s.R.length = pi.length) (hpi : ∀ p ∈ pi, 0 < p) :
    IsDist (s.newR pi) ∧ (s.newR pi).length = s.R.length + 1 ∧ ∀ p ∈ (s.newR pi).head?, 0 < p := by
  obtain ⟨hnonneg, hpos⟩ := sum_zipWith_pos hlen hR.nonneg hpi
  have hpos := hpos (hR.sum ▸ one_pos)
  have hlength : (List.zipWith (· * ·) s.R pi).length = s.R.length := by
    rw [List.length_zipWith, ← hlen, min_self]
  unfold BocpdState.newR
  dsimp only
  generalize List.zipWith (· * ·) s.R pi = w at hnonneg hpos hlength ⊢
  have hcp : 0 < (w.map (· * s.hazard)).sum := by
    rw [List.sum_map_mul_right, List.map_id']
    exact mul_pos hpos h0
  have hsum : 0 < ((w.map (· * s.hazard)).sum :: w.map (· * (1 - s.hazard))).sum :=
    (sum_growth w _).symm ▸ hpos
  have hgrowth : ∀ p ∈ w.map (· * (1 - s.hazard)), 0 ≤ p :=
    List.forall_mem_map.mpr fun p hp => mul_nonneg (hnonneg p hp) (sub_nonneg.mpr h1.le)
  rw [rescale, if_pos hsum]
  refine ⟨isDist_map_div (List.forall_mem_cons.mpr ⟨hcp.le, hgrowth⟩) hsum, ?_, fun p hp => ?_⟩
  · rw [List.length_map, List.length_cons, List.length_map, hlength]
  · obtain rfl := Option.some.inj hp
    exact div_pos hcp hsum

/-- The truncation keeps a distribution. -/
theorem truncateR_spec (hl : IsDist l) (hhead : ∀ p ∈ l.head?, 0 < p) (hmax : 1 ≤ maxRun) :
    IsDist (truncateR maxRun l) ∧ (truncateR maxRun l).length = min maxRun l.length := by
  unfold truncateR
  split
  · next hlong =>
    have hnonneg : ∀ p ∈ l.take maxRun, 0 ≤ p := fun p hp => hl.nonneg p (List.mem_of_mem_take hp)
    have hpos : 0 < (l.take maxRun).sum := by
      obtain ⟨n, rfl⟩ := Nat.exists_eq_add_of_le' hmax
      cases l with
      | nil => exact absurd hlong (Nat.not_lt_zero _)
      | cons p l =>
        rw [List.take_succ_cons] at hnonneg ⊢
        rw [List.sum_cons]
        exact add_pos_of_pos_of_nonneg (hhead p rfl)
          (List.sum_nonneg (List.forall_mem_cons.mp hnonneg).2)
    dsimp only
    rw [if_pos hpos, List.length_map, List.length_take]
    exact ⟨isDist_map_div hnonneg hpos, rfl⟩
  · next hshort => exact ⟨hl, (min_eq_right (not_lt.mp hshort)).symm⟩

end weights

/-! ## The parallel arrays -/

section arrays

variable {K : Type} [Field K] {pdf : K → K → K → K → K} {hazard : K} {prior : Gaussian K}
  {maxRun : ℕ} {xs : List K} {s : BocpdState K}

/-- The parameters for the run lengths of the support. -/
def runStats (prior : Gaussian K) (maxRun : ℕ) (xs : List K) : List (Gaussian K) :=
  Suffixes.table Gaussian.update prior xs (min (xs.length + 1) maxRun)

theorem length_runStats : (runStats prior maxRun xs).length = min (xs.length + 1) maxRun :=
  Suffixes.length_table

/-- One more observation: the prior comes in front, and what exceeds the support is cut off. -/
theorem runStats_snoc (x : K) : runStats prior maxRun (xs ++ [x]) =
    (prior :: (runStats prior maxRun xs).map fun p => p.update x).take maxRun := by
  have hlen : min maxRun (min (xs.length + 1) maxRun + 1) =
      min ((xs ++ [x]).length + 1) maxRun := by
    rw [List.length_append, List.length_singleton]
    omega
  rw [runStats, runStats, ← Suffixes.table_snoc, Suffixes.take_table, hlen]

theorem zipWith_map_map {α β γ δ : Type} (f : β → γ → δ) (g : α → β) (h : α → γ) (l : List α) :
    List.zipWith f (l.map g) (l.map h) = l.map fun a => f (g a) (h a) :=
  List.zipWith_map.trans List.zipWith_self

theorem zipWith3_map_map {α β γ δ ε : Type} (f : β → γ → δ → ε) (g : α → β) (h : α → γ) (k : α → δ)
    (l : List α) :
    List.zipWith3 f (l.map g) (l.map h) (l.map k) = l.map fun a => f (g a) (h a) (k a) := by
  induction l with
  | nil => rfl
  | cons a l ih => exact congrArg (f (g a) (h a) (k a) :: ·) ih

/-- An array of parameters is cut like the posterior. -/
theorem cut_runStats {n : ℕ} (hn : n = (runStats prior maxRun xs).length + 1) (x : K)
    (g : Gaussian K → K) {stat : List K}
    (hstat : stat = (prior :: (runStats prior maxRun xs).map fun p => p.update x).map g) :
    (if n > maxRun then stat.take maxRun else stat) =
      (runStats prior maxRun (xs ++ [x])).map g := by
  rw [runStats_snoc, List.map_take, hstat]
  split
  · rfl
  · next hshort =>
    refine (List.take_of_length_le ?_).symm
    rw [List.length_map, List.length_cons, List.length_map, ← hn]
    exact not_lt.mp hshort

variable [LinearOrder K]

/-- The arrays are those of the same parameters, and the posterior is a distribution over them. -/
structure Aligned (hazard : K) (prior : Gaussian K) (maxRun : ℕ) (xs : List K)
    (s : BocpdState K) : Prop where
  t : s.t = xs.length
  hazard_eq : s.hazard = hazard
  maxRun_eq : s.maxRun = maxRun
  prior_eq : s.prior = prior
  mu : s.mu = (runStats prior maxRun xs).map (·.mu)
  kappa : s.kappa = (runStats prior maxRun xs).map (·.kappa)
  alpha : s.alpha = (runStats prior maxRun xs).map (·.alpha)
  beta : s.beta = (runStats prior maxRun xs).map (·.beta)
  dist : IsDist s.R
  length : s.R.length = min (xs.length + 1) maxRun

theorem Aligned.densities (H : Aligned hazard prior maxRun xs s) (x : K) : s.densities pdf x =
    (runStats prior maxRun xs).map fun p =>
      pdf x (2 * p.alpha) p.mu (p.beta * (p.kappa + 1) / (p.alpha * p.kappa)) := by
  rw [BocpdState.densities, BocpdState.scale2, H.mu, H.kappa, H.alpha, H.beta, zipWith_map_map,
    zipWith_map_map, zipWith_map_map, List.map_map, zipWith3_map_map]
  rfl

theorem Aligned.length_densities (H : Aligned hazard prior maxRun xs s) (x : K) :
    (s.densities pdf x).length = s.R.length := by
  rw [H.densities, List.length_map, length_runStats, H.length]

variable [IsStrictOrderedRing K]

theorem Gaussian.Valid.update {p : Gaussian K} (h : p.Valid) (x : K) : (p.update x).Valid where
  kappa := add_pos h.kappa one_pos
  alpha := add_pos h.alpha (by norm_num)
  beta := by
    have hkappa : 0 < p.kappa + 1 := add_pos h.kappa one_pos
    exact add_pos_of_pos_of_nonneg h.beta
      (div_nonneg (mul_nonneg h.kappa.le (sq_nonneg _)) (mul_pos two_pos hkappa).le)

theorem runStats_valid (hprior : prior.Valid) : ∀ p ∈ runStats prior maxRun xs, p.Valid :=
  Suffixes.forall_mem_table hprior fun _ x h => h.update x

theorem aligned_init (hazard : K) (prior : Option (Gaussian K)) (hmax : 1 ≤ maxRun) :
    Aligned hazard (prior.getD defaultPrior) maxRun [] (initState hazard prior maxRun) := by
  have hlen : min (([] : List K).length + 1) maxRun = 1 := min_eq_left hmax
  have hstats : runStats (prior.getD defaultPrior) maxRun [] = [prior.getD defaultPrior] := by
    rw [runStats, hlen]
    rfl
  refine ⟨rfl, rfl, rfl, rfl, ?_, ?_, ?_, ?_, ⟨?_, List.sum_singleton⟩, hlen.symm⟩
  · rw [hstats]; rfl
  · rw [hstats]; rfl
  · rw [hstats]; rfl
  · rw [hstats]; rfl
  · exact fun p hp => List.mem_singleton.mp hp ▸ zero_le_one

theorem Aligned.densities_pos (H : Aligned hazard prior maxRun xs s)
    (hpdf : ∀ x df loc scale2, 0 < df → 0 < scale2 → 0 < pdf x df loc scale2)
    (hprior : prior.Valid) (x : K) : ∀ d ∈ s.densities pdf x, 0 < d := by
  rw [H.densities]
  refine List.forall_mem_map.mpr fun p hp => ?_
  obtain ⟨hkappa, halpha, hbeta⟩ := runStats_valid hprior p hp
  exact hpdf _ _ _ _ (mul_pos two_pos halpha)
    (div_pos (mul_pos hbeta (add_pos hkappa one_pos)) (mul_pos halpha hkappa))

/-- A step keeps the arrays aligned. -/
theorem Aligned.step (H : Aligned hazard prior maxRun xs s)
    (hpdf : ∀ x df loc scale2, 0 < df → 0 < scale2 → 0 < pdf x df loc scale2) (h0 : 0 < hazard)
    (h1 : hazard < 1) (hmax : 1 ≤ maxRun) (hprior : prior.Valid) (x : K) :
    ∃ s', bocpdStep pdf s x = .ok s' ∧ Aligned hazard prior maxRun (xs ++ [x]) s' := by
  have hpos := H.densities_pos hpdf hprior x
  have hlen : (s.densities pdf x).length = s.R.length := H.length_densities x
  unfold bocpdStep
  dsimp only
  generalize s.densities pdf x = densities at hpos hlen ⊢
  cases hbest : densities.max? with
  | none =>
    rw [List.max?_eq_none_iff.mp hbest, List.length_nil, H.length] at hlen
    omega
  | some best =>
    dsimp only
    have hbestPos : 0 < best := hpos best (List.max?_mem hbest)
    have hpi : ∀ p ∈ densities.map (· / best), 0 < p :=
      List.forall_mem_map.mpr fun d hd => div_pos (hpos d hd) hbestPos
    obtain ⟨hdist, hlength, hhead⟩ :=
      newR_spec (s := s) H.dist (H.hazard_eq ▸ h0) (H.hazard_eq ▸ h1)
        (by rw [List.length_map, hlen]) hpi
    generalize s.newR (densities.map (· / best)) = newR at hdist hlength hhead ⊢
    obtain ⟨hcut, hcutLength⟩ := truncateR_spec hdist hhead (H.maxRun_eq ▸ hmax)
    rw [H.length] at hlength
    rw [H.maxRun_eq] at hcut hcutLength ⊢
    have hn : newR.length = (runStats prior maxRun xs).length + 1 := by
      rw [hlength, length_runStats]
    refine ⟨_, rfl, ?_, H.hazard_eq, rfl, H.prior_eq, cut_runStats hn x _ ?_,
      cut_runStats hn x _ ?_, cut_runStats hn x _ ?_, cut_runStats hn x _ ?_, hcut, ?_⟩
    · rw [List.length_append, H.t]
      rfl
    · rw [H.prior_eq, H.mu, H.kappa, zipWith_map_map, List.map_cons, List.map_map]
      rfl
    · rw [H.prior_eq, H.kappa, List.map_cons, List.map_map, List.map_map]
      rfl
    · rw [H.prior_eq, H.alpha, List.map_cons, List.map_map, List.map_map]
      rfl
    · rw [H.prior_eq, H.beta, H.kappa, H.mu, zipWith_map_map, zipWith_map_map, List.map_cons,
        List.map_map]
      rfl
    · rw [hcutLength, hlength, List.length_append, List.length_singleton]
      omega

theorem Aligned.posterior (H : Aligned hazard prior maxRun xs s) (hprior : prior.Valid) :
    Posterior prior maxRun xs s := by
  have hlen : min (s.t + 1) maxRun = min (xs.length + 1) maxRun := by rw [H.t]
  have hstats : ∀ {g : Gaussian K → K}, ((runStats prior maxRun xs).map g).length =
      min (s.t + 1) maxRun := by
    intro g
    rw [List.length_map, length_runStats, hlen]
  have hvalid : ∀ p ∈ runStats prior maxRun xs, p.Valid := runStats_valid hprior
  refine ⟨H.t, ⟨hlen ▸ H.length, ?_, ?_, ?_, ?_⟩, H.dist.nonneg, H.dist.sum, ⟨?_, ?_, ?_⟩,
    fun r hr => ?_⟩
  · rw [H.mu, hstats]
  · rw [H.kappa, hstats]
  · rw [H.alpha, hstats]
  · rw [H.beta, hstats]
  · rw [H.kappa]
    exact List.forall_mem_map.mpr fun p hp => (hvalid p hp).kappa
  · rw [H.alpha]
    exact List.forall_mem_map.mpr fun p hp => (hvalid p hp).alpha
  · rw [H.beta]
    exact List.forall_mem_map.mpr fun p hp => (hvalid p hp).beta
  · have hentry : (runStats prior maxRun xs)[r]? =
        some (Suffixes.last Gaussian.update prior xs r) :=
      Suffixes.getElem?_table (hlen ▸ hr)
    rw [H.mu, H.kappa, H.alpha, H.beta]
    simp only [List.getElem?_map, hentry]
    exact ⟨rfl, rfl, rfl, rfl⟩

theorem aligned_run (H : Aligned hazard prior maxRun xs s)
    (hpdf : ∀ x df loc scale2, 0 < df → 0 < scale2 → 0 < pdf x df loc scale2) (h0 : 0 < hazard)
    (h1 : hazard < 1) (hmax : 1 ≤ maxRun) (hprior : prior.Valid) (ys : List K) :
    ∃ s', bocpdRun pdf s ys = .ok s' ∧ Aligned hazard prior maxRun (xs ++ ys) s' := by
  induction ys generalizing xs s with
  | nil => exact ⟨s, rfl, (List.append_nil xs).symm ▸ H⟩
  | cons y ys ih =>
    obtain ⟨s₁, hstep, H₁⟩ := H.step hpdf h0 h1 hmax hprior y
    obtain ⟨s', hrun, H'⟩ := ih H₁
    refine ⟨s', ?_, ?_⟩
    · rw [bocpdRun, List.foldlM_cons, hstep]
      exact hrun
    · rwa [List.append_assoc, List.singleton_append] at H'

/-- After every step the posterior of the run length is a distribution, and entry `r` of the arrays
is the prior updated with the last `r` observations. -/
theorem bocpd_posterior (hpdf : ∀ x df loc scale2, 0 < df → 0 < scale2 → 0 < pdf x df loc scale2)
    (h0 : 0 < hazard) (h1 : hazard < 1) (hmax : 1 ≤ maxRun) {prior : Option (Gaussian K)}
    (hprior : (prior.getD defaultPrior).Valid) (xs : List K) :
    ∃ s, bocpdRun pdf (initState hazard prior maxRun) xs = .ok s ∧
      Posterior (prior.getD defaultPrior) maxRun xs s := by
  obtain ⟨s, hrun, H⟩ := aligned_run (aligned_init hazard prior hmax) hpdf h0 h1 hmax hprior xs
  exact ⟨s, hrun, H.posterior hprior⟩

/-- A density with the tails of a Cauchy distribution, and four observations for three run
lengths. -/
theorem bocpd_posterior_cauchy :
    ∃ s, bocpdRun (fun x df loc scale2 : ℚ => 1 / (1 + (x - loc) ^ 2 / (df * scale2)))
        (initState (1 / 250) none 3) [1, 2, 0, 7] = .ok s ∧
      Posterior defaultPrior 3 [1, 2, 0, 7] s := by
  have hprior : ((none : Option (Gaussian ℚ)).getD defaultPrior).Valid := by
    refine ⟨?_, ?_, ?_⟩
    · norm_num [defaultPrior]
    · norm_num [defaultPrior]
    · norm_num [defaultPrior]
  exact bocpd_posterior (fun x df loc scale2 hdf hscale => by positivity) (by norm_num)
    (by norm_num)
    (by decide) hprior [1, 2, 0, 7]

end arrays

end P300
