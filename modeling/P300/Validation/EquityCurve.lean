import Mathlib.Algebra.Order.Ring.Rat
import Mathlib.Algebra.BigOperators.Group.List.Basic
import Mathlib.Tactic.LinearCombination
import P300.Lib.Dict
import P300.Lib.Pass

/-!
# The equity curve of trades

`equity_curve_from_trades` of `studies/lib/validation/dd_duration.py`. The trades go into a
dictionary by their dates first, so of the trades of one date only the last one is booked. A date is
a number of days.
-/

namespace P300

/-- The dates from `d0` to `d1`. -/
def calendarDays (d0 d1 : Int) : List Int :=
  (List.range (d1 - d0 + 1).toNat).map fun k : ℕ => d0 + k

/-- The body of the loop over the days. -/
def curveStep (tradeMap : Dict Int ℚ) (eq : ℚ) (d : Int) : ℚ × (Int × ℚ) :=
  let eq := match tradeMap.get? d with
    | some r => eq * (1 + r)
    | none => eq
  (eq, (d, eq))

/-- `equity_curve_from_trades` -/
def equityCurveFromTrades (trades : List (Int × ℚ)) (startDate : Option Int) : List (Int × ℚ) :=
  match trades.head?, trades.getLast? with
  | some first, some last =>
    let tradeMap := Dict.empty.upsert trades
    let start := startDate.getD first.1
    Pass.out (curveStep tradeMap) 1 (calendarDays start last.1)
  | _, _ => []

/-! ## All trades -/

/-- What trades make of 1. -/
def growth (trades : List (Int × ℚ)) : ℚ := (trades.map fun t => 1 + t.2).prod

/-- The product of all trades on or before a day. -/
def booked (trades : List (Int × ℚ)) (d : Int) : ℚ := growth (trades.filter fun t => t.1 ≤ d)

/-- The curve with every trade in it. -/
def bookedCurve (trades : List (Int × ℚ)) (startDate : Option Int) : List (Int × ℚ) :=
  match trades.head?, trades.getLast? with
  | some first, some last =>
    (calendarDays (startDate.getD first.1) last.1).map fun d => (d, booked trades d)
  | _, _ => []

/-- What is lost of a date makes no difference: there is nothing left to grow, or the last trade
takes all, or the trades before it make 1. -/
def NothingLost (trades : List (Int × ℚ)) (d : Int) : Prop :=
  ∀ front last, (trades.filter fun t => t.1 = d) = front ++ [last] →
    booked trades (d - 1) = 0 ∨ last.2 = -1 ∨ growth front = 1

section curve

variable {trades : List (Int × ℚ)} {d d0 d1 : Int} {startDate : Option Int}

theorem booked_eq (trades : List (Int × ℚ)) (d : Int) :
    booked trades d = booked trades (d - 1) * growth (trades.filter fun t => t.1 = d) := by
  rw [booked, booked, growth, growth, growth, ← List.prod_append, ← List.map_append]
  refine List.Perm.prod_eq (List.Perm.map _ ?_)
  refine (List.filter_append_perm (fun t => decide (t.1 ≤ d - 1)) _).symm.trans ?_
  rw [List.filter_filter, List.filter_filter]
  refine List.Perm.of_eq (congrArg₂ _ (List.filter_congr fun t _ => ?_)
    (List.filter_congr fun t _ => ?_))
  · rw [← Bool.decide_and, decide_eq_decide]
    omega
  · rw [← decide_not, ← Bool.decide_and, decide_eq_decide]
    omega

/-- A day of the loop books what it should just when nothing is lost. -/
theorem curveStep_booked_iff : (curveStep (Dict.empty.upsert trades) (booked trades (d - 1)) d).1 =
    booked trades d ↔
    NothingLost trades d := by
  rw [booked_eq trades d, curveStep, Dict.get?_upsert, NothingLost]
  rcases List.eq_nil_or_concat (trades.filter fun t => t.1 = d) with hnone | ⟨front, last, hlast⟩
  · rw [hnone]
    refine iff_of_true (mul_one _).symm fun front last h => ?_
    exact (List.append_ne_nil_of_right_ne_nil _ (List.cons_ne_nil _ _) h.symm).elim
  · rw [List.concat_eq_append] at hlast
    rw [hlast, List.getLast?_concat, growth, List.map_append, List.prod_append, ← growth,
      List.map_singleton, List.prod_singleton]
    change booked trades (d - 1) * (1 + last.2) = _ ↔ _
    constructor
    · intro h front' last' heq
      obtain ⟨rfl, hl⟩ := List.append_inj' heq rfl
      obtain rfl := List.singleton_inj.mp hl
      have hzero : booked trades (d - 1) * ((1 + last.2) * (growth front - 1)) = 0 :=
        by linear_combination -h
      rcases mul_eq_zero.mp hzero with h | h
      · exact .inl h
      · rcases mul_eq_zero.mp h with h | h
        · exact .inr (.inl (eq_neg_of_add_eq_zero_right h))
        · exact .inr (.inr (sub_eq_zero.mp h))
    · intro h
      rcases h front last rfl with h | h | h
      · rw [h, zero_mul, zero_mul]
      · rw [h, add_neg_cancel, mul_zero, mul_zero, mul_zero]
      · rw [h, one_mul]

/-- The loop from a day on, if all is right before it. -/
theorem out_curveStep_iff (n : ℕ) (d0 : Int) :
    Pass.out (curveStep (Dict.empty.upsert trades)) (booked trades (d0 - 1))
    ((List.range n).map fun k : ℕ => d0 + k) =
      ((List.range n).map fun k : ℕ => d0 + k).map (fun d => (d, booked trades d)) ↔
    ∀ k < n, NothingLost trades (d0 + k) := by
  induction n generalizing d0 with
  | zero => exact iff_of_true rfl fun k hk => (Nat.not_lt_zero k hk).elim
  | succ n ih =>
    have hshift : ∀ k : ℕ, d0 + (k + 1 : ℕ) = d0 + 1 + k := fun k => by omega
    have hdays : (List.range (n + 1)).map (fun k : ℕ => d0 + k) =
        d0 :: (List.range n).map fun k : ℕ => d0 + 1 + k := by
      rw [List.range_succ_eq_map, List.map_cons, List.map_map, Nat.cast_zero, add_zero]
      exact congrArg _ (List.map_congr_left fun k _ => hshift k)
    have hfirst : (∀ k < n + 1, NothingLost trades (d0 + k)) ↔
        NothingLost trades d0 ∧ ∀ k < n, NothingLost trades (d0 + 1 + k) := by
      rw [Nat.forall_lt_succ_left, Nat.cast_zero, add_zero]
      simp only [hshift]
    have hnext := ih (d0 + 1)
    rw [add_sub_cancel_right] at hnext
    rw [hdays, hfirst, List.map_cons, Pass.out, List.cons.injEq, ← curveStep_booked_iff]
    constructor
    · rintro ⟨hhead, htail⟩
      have hbooked : (curveStep (Dict.empty.upsert trades) (booked trades (d0 - 1)) d0).1 =
          booked trades d0 :=
        congrArg Prod.snd hhead
      rw [hbooked] at htail
      exact ⟨hbooked, hnext.mp htail⟩
    · rintro ⟨hbooked, htail⟩
      exact ⟨congrArg (d0, ·) hbooked, (congrArg (Pass.out _ · _) hbooked).trans (hnext.mpr htail)⟩

theorem nothingLost_of_not_mem (h : ∀ t ∈ trades, t.1 ≠ d) : NothingLost trades d := by
  intro front last heq
  have hmem : last ∈ trades.filter fun t => t.1 = d :=
    heq ▸ List.mem_append_right _ List.mem_cons_self
  exact absurd (of_decide_eq_true (List.mem_filter.mp hmem).2) (h last (List.mem_filter.mp hmem).1)

theorem booked_before (h : ∀ t ∈ trades, d < t.1) : booked trades d = 1 := by
  have hnone : (trades.filter fun t => t.1 ≤ d) = [] :=
    List.filter_eq_nil_iff.mpr fun t ht => by simpa using h t ht
  rw [booked, hnone]
  rfl

/-- The dates of the curve do not depend on what is lost. -/
theorem equityCurve_dates : (equityCurveFromTrades trades startDate).map Prod.fst =
    (bookedCurve trades startDate).map Prod.fst := by
  unfold equityCurveFromTrades bookedCurve
  cases trades.head? with
  | none => rfl
  | some first =>
    cases trades.getLast? with
    | none => rfl
    | some last =>
      dsimp only
      rw [Pass.map_out (h := fun d => d) fun _ _ => rfl, List.map_map]
      rfl

/-- The curve has a point for each day, and it books every trade just when no date loses one that
makes a difference. -/
theorem equity_curve_iff (htrades : trades.Pairwise fun t t' => t.1 ≤ t'.1)
    (hstart : ∀ start ∈ startDate, ∀ t ∈ trades, start ≤ t.1) :
    (equityCurveFromTrades trades startDate).map Prod.fst =
      (bookedCurve trades startDate).map Prod.fst ∧
    (equityCurveFromTrades trades startDate = bookedCurve trades startDate ↔
      ∀ d, NothingLost trades d) := by
  refine ⟨equityCurve_dates, ?_⟩
  unfold equityCurveFromTrades bookedCurve
  cases hfirst : trades.head? with
  | none =>
    obtain rfl := List.head?_eq_none_iff.mp hfirst
    exact iff_of_true rfl fun d => nothingLost_of_not_mem fun t ht => (List.not_mem_nil ht).elim
  | some first =>
    cases hlast : trades.getLast? with
    | none =>
      obtain rfl := List.getLast?_eq_none_iff.mp hlast
      cases hfirst
    | some last =>
      dsimp only
      have hfrom : ∀ t ∈ trades, startDate.getD first.1 ≤ t.1 := by
        cases startDate with
        | some start => exact hstart start rfl
        | none =>
          obtain ⟨rest, rfl⟩ := List.head?_eq_some_iff.mp hfirst
          exact List.forall_mem_cons.mpr ⟨le_rfl, (List.pairwise_cons.mp htrades).1⟩
      have hto : ∀ t ∈ trades, t.1 ≤ last.1 := by
        obtain ⟨front, rfl⟩ := List.getLast?_eq_some_iff.mp hlast
        intro t ht
        rcases List.mem_append.mp ht with ht | ht
        · exact (List.pairwise_append.mp htrades).2.2 t ht last List.mem_cons_self
        · exact (List.mem_singleton.mp ht ▸ le_rfl)
      generalize startDate.getD first.1 = d0 at hfrom ⊢
      have hbefore : booked trades (d0 - 1) = 1 := booked_before fun t ht => by
        have := hfrom t ht
        omega
      rw [calendarDays, ← hbefore, out_curveStep_iff]
      constructor
      · intro h d
        by_cases hd : d0 ≤ d ∧ d ≤ last.1
        · have hk := h (d - d0).toNat (by omega)
          rwa [Int.toNat_of_nonneg (by omega), add_sub_cancel] at hk
        · refine nothingLost_of_not_mem fun t ht hdate => hd ?_
          exact hdate ▸ ⟨hfrom t ht, hto t ht⟩
      · exact fun h k _ => h _

/-- Two trades of one day, of which the curve has the second. -/
theorem equity_curve_iff_twoTrades :
    (equityCurveFromTrades [(0, 1/10), (0, 1/5)] none).map Prod.fst =
      (bookedCurve [(0, 1/10), (0, 1/5)] none).map Prod.fst ∧
    (equityCurveFromTrades [(0, 1/10), (0, 1/5)] none = bookedCurve [(0, 1/10), (0, 1/5)] none ↔
      ∀ d, NothingLost [(0, 1/10), (0, 1/5)] d) :=
  equity_curve_iff (by simp) (by simp)

theorem equity_curve_lost_trade : equityCurveFromTrades [(0, 1/10), (0, 1/5)] none = [(0, 6/5)] ∧
    bookedCurve [(0, 1/10), (0, 1/5)] none = [(0, 33/25)] ∧
    equityCurveFromTrades [(0, 1/10), (0, 1/5)] none ≠ bookedCurve [(0, 1/10), (0, 1/5)] none := by
  decide +kernel

end curve

end P300
