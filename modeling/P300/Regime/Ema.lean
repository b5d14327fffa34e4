import P300.Basic
import P300.Lib.Causal
import Mathlib.Algebra.BigOperators.Group.List.Defs
import Mathlib.Algebra.Order.Ring.Rat

/-!
# Exponential moving averages

`indicators.ema`, which the regime classifier and the weekly crossover share under the name
`ema_calc`. A value of the warm-up (`nan` in the source) is `none`.
-/

namespace P300

/-- The values of `ema_calc` for a positive period. -/
def emaSeries (values : List ℚ) (period : ℕ) : List (Option ℚ) :=
  if values.length < period then List.replicate values.length none
  else
    let seed := (values.take period).sum / period
    let k : ℚ := 2 / (period + 1)
    List.replicate (period - 1) none ++
      (List.scanl (fun prev v => v * k + prev * (1 - k)) seed (values.drop period)).map some

/-- `indicators.ema`; the seed of period 0 is `sum([]) / 0`. -/
def emaCalc (values : List ℚ) (period : ℕ) : Except String (List (Option ℚ)) :=
  if period = 0 then .error "ZeroDivisionError" else .ok (emaSeries values period)

theorem emaCalc_of_pos {period : ℕ} (hp : 0 < period) (values : List ℚ) :
    emaCalc values period = .ok (emaSeries values period) :=
  if_neg (Nat.ne_of_gt hp)

theorem emaSeries_eq_seeded (values : List ℚ) (period : ℕ) :
    emaSeries values period = Causal.seeded period
      (fun window : List ℚ => window.sum / (period : ℚ))
      (fun prev v : ℚ => v * (2 / (period + 1)) + prev * (1 - 2 / (period + 1))) values := rfl

theorem length_emaSeries {period : ℕ} (hp : 0 < period) (values : List ℚ) :
    (emaSeries values period).length = values.length := by
  rw [emaSeries_eq_seeded, Causal.length_seeded hp]

theorem causal_emaSeries {period : ℕ} (hp : 0 < period) :
    Causal fun values => emaSeries values period := by
  intro l l'
  simp only [emaSeries_eq_seeded]
  exact Causal.seeded_causal hp _ _ l l'

/-- After the warm-up no value is missing. -/
theorem emaSeries_isSome {values : List ℚ} {period i j : ℕ} (hij : i ≤ j) (hj : j < values.length)
    (h : ∃ v, (emaSeries values period)[i]? = some (some v)) :
    ∃ v, (emaSeries values period)[j]? = some (some v) := by
  obtain ⟨v, hv⟩ := h
  rw [emaSeries_eq_seeded] at hv ⊢
  have hi : period ≤ i + 1 := Causal.le_of_seeded hv
  exact Causal.seeded_isSome _ _ (hi.trans (Nat.succ_le_succ hij)) hj

end P300
