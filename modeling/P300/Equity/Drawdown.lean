import P300.Equity.Daily

/-!
# Drawdown

`compute_metrics` of `strategies/support/equity.py` walks the marked equity of daily rows, and
`max_drawdown_from_pnl_curve` of `strategies/support/strategy_health.py` adds up their P&L again. As
a row opens at the equity of the row before, both walk the same curve.
-/

namespace P300

/-! ## Marked equity -/

/-- The locals of the drawdown loop of `compute_metrics`. -/
structure NavWalk where
  peak : ℚ
  mdd : ℚ

def NavWalk.step (s : NavWalk) (r : DailyRow) : NavWalk :=
  let peak := max s.peak r.equityUsdt
  let dd := if peak > 0 then r.equityUsdt / peak - 1 else 0
  ⟨peak, min s.mdd dd⟩

/-- The fields of the returned dictionary; `nan` is `none`, and what is not rational is given by its
exact arguments. -/
structure NavMetrics where
  finalEquity : ℚ
  totalReturnPct : ℚ
  /-- base and exponent in `(base ** exponent - 1) * 100` -/
  cagrPct : Option (ℚ × ℚ)
  /-- mean and variance in `mean / sqrt(var) * sqrt(365)` -/
  sharpeDailyAnn : Option (ℚ × ℚ)
  mddPct : ℚ
  nDays : ℕ

/-- The Sharpe ratio of more than one return, unless all are equal. -/
def sharpeDailyAnn (rets : List ℚ) : Option (ℚ × ℚ) :=
  if rets.length > 1 then
    let mean : ℚ := rets.sum / rets.length
    let var : ℚ := (rets.map fun r : ℚ => (r - mean) ^ 2).sum / (rets.length - 1)
    if var > 0 then some (mean, var) else none
  else none

/-- `compute_metrics` of rows of `daily_equity`, which always have an opening equity in place of
`capital`; `none` is the empty dictionary. -/
def computeMetrics (navRows : List DailyRow) : Except String (Option NavMetrics) :=
  match navRows.head?, navRows.getLast? with
  | some first, some last =>
    if navRows.any fun r => r.navReturnPct.isNone then
      .error "Daily risk metrics undefined after non-positive equity"
    else
      let rets := (navRows.map (·.navReturnPct)).reduceOption.map (· / 100)
      let capital := first.openingEquityUsdt
      let finalEquity := last.equityUsdt
      let years : ℚ := navRows.length / (36525 / 100)
      .ok <| some
        { finalEquity
          totalReturnPct := (finalEquity / capital - 1) * 100
          cagrPct :=
            if years > 0 ∧ finalEquity > 0 then some (finalEquity / capital, 1 / years) else none
          sharpeDailyAnn := sharpeDailyAnn rets
          mddPct := (navRows.foldl NavWalk.step ⟨capital, 0⟩).mdd * 100
          nDays := navRows.length }
  | _, _ => .ok none

/-! ## Accumulated P&L -/

/-- The locals of `max_drawdown_from_pnl_curve`. -/
structure PnlWalk where
  eq : ℚ
  peak : ℚ
  mdd : ℚ

def PnlWalk.step (s : PnlWalk) (p : ℚ) : PnlWalk :=
  let eq := s.eq + p
  let peak := if eq > s.peak then eq else s.peak
  let dd := (eq / peak - 1) * 100
  ⟨eq, peak, if dd < s.mdd then dd else s.mdd⟩

/-- `max_drawdown_from_pnl_curve` -/
def maxDrawdownFromPnlCurve (pnlsUsdt : List ℚ) (startingCapital : ℚ) : Option ℚ :=
  if pnlsUsdt = [] ∨ startingCapital ≤ 0 then none
  else some (pnlsUsdt.foldl PnlWalk.step ⟨startingCapital, startingCapital, 0⟩).mdd

/-! ## One curve -/

/-- The walks are at the same point of the curve. -/
structure SameDrawdown (s : NavWalk) (t : PnlWalk) (equity : ℚ) : Prop where
  eq_eq : t.eq = equity
  peak_eq : t.peak = s.peak
  mdd_eq : t.mdd = s.mdd * 100
  peak_pos : 0 < s.peak

theorem SameDrawdown.step {s : NavWalk} {t : PnlWalk} {r : DailyRow}
    (H : SameDrawdown s t r.openingEquityUsdt) :
    SameDrawdown (s.step r) (t.step r.dailyPnl) r.equityUsdt := by
  have hpos : 0 < max s.peak r.equityUsdt := lt_max_of_lt_left H.peak_pos
  have heq : t.eq + r.dailyPnl = r.equityUsdt := by rw [H.eq_eq, r.pnl_eq, add_sub_cancel]
  have hpeak : (if r.equityUsdt > t.peak then r.equityUsdt else t.peak) =
      max s.peak r.equityUsdt := by
    rw [H.peak_eq]
    split
    · next h => exact (max_eq_right h.le).symm
    · next h => exact (max_eq_left (not_lt.mp h)).symm
  unfold PnlWalk.step NavWalk.step
  dsimp only
  rw [heq, hpeak, if_pos hpos, H.mdd_eq]
  refine ⟨rfl, rfl, ?_, hpos⟩
  dsimp only
  rw [min_mul_of_nonneg _ _ (by decide +kernel : (0 : ℚ) ≤ 100), min_comm, min_def_lt]

/-- Over rows that follow one another. -/
theorem SameDrawdown.foldl {rows : List DailyRow}
    (hchain : rows.IsChain fun r r' => r.equityUsdt = r'.openingEquityUsdt) {s : NavWalk}
    {t : PnlWalk} {opening : ℚ} (hhead : ∀ r ∈ rows.head?, r.openingEquityUsdt = opening)
    (H : SameDrawdown s t opening) :
    ((rows.map (·.dailyPnl)).foldl PnlWalk.step t).mdd = (rows.foldl NavWalk.step s).mdd * 100 := by
  induction rows generalizing s t opening with
  | nil => exact H.mdd_eq
  | cons r rows ih =>
    obtain ⟨hnext, hchain⟩ := List.isChain_cons.mp hchain
    have H : SameDrawdown s t r.openingEquityUsdt := hhead r rfl ▸ H
    exact ih hchain (fun r' hr' => (hnext r' hr').symm) H.step

/-- Every row is written by `dailyRow`. -/
theorem dailyRows_mem {market : MarketData} {capitalUsdt previous : ℚ} {limit current : Time}
    {days : Nat} {ps : List Position} {rows : List DailyRow}
    (h : dailyRows market capitalUsdt limit days current previous ps = .ok rows) :
    ∀ r ∈ rows, ∃ current previous value, r = dailyRow capitalUsdt current previous value := by
  induction days generalizing current previous ps rows with
  | zero =>
    cases h
    exact fun _ hr => nomatch hr
  | succ days ih =>
    obtain ⟨⟨value, ps₁⟩, -, h⟩ := of_bind_ok h
    obtain ⟨rest, hrest, h⟩ := of_bind_ok h
    cases h
    refine List.forall_mem_cons.mpr ⟨⟨current, previous, value, rfl⟩, ih hrest⟩

section agree

variable {julianday : Time → ℚ} {d : Ledger} {market : MarketData} {variantId : String}
  {capitalUsdt : ℚ} {asOf : Option Time} {now : Time} {start stop : Int} {rows : List DailyRow}

/-- A row opens at the equity of the row before, and has a return if it opens above 0. -/
theorem dailyEquity_rows
    (h : dailyEquity julianday d market variantId capitalUsdt asOf now start stop = .ok rows) :
    (rows.IsChain fun r r' => r.equityUsdt = r'.openingEquityUsdt) ∧
      ∀ r ∈ rows, 0 < r.openingEquityUsdt → r.navReturnPct.isSome := by
  obtain ⟨_, -, h⟩ := of_bind_ok h
  dsimp only at h
  split at h
  · cases h
    exact ⟨.nil, fun _ hr => nomatch hr⟩
  · obtain ⟨ps, -, h⟩ := of_bind_ok h
    obtain ⟨⟨previous, ps'⟩, -, h⟩ := of_bind_ok h
    refine ⟨(dailyRows_chain h).1, fun r hr hpos => ?_⟩
    obtain ⟨current, previous, value, rfl⟩ := dailyRows_mem h r hr
    exact Option.isSome_iff_exists.mpr ⟨_, if_pos hpos⟩

/-- The drawdown of the marked equity is that of the accumulated daily P&L. -/
theorem drawdowns_agree
    (h : dailyEquity julianday d market variantId capitalUsdt asOf now start stop = .ok rows)
    {first : DailyRow} (hfirst : rows.head? = some first)
    (hpos : ∀ r ∈ rows, 0 < r.openingEquityUsdt) :
    ∃ metrics, computeMetrics rows = .ok (some metrics) ∧
      maxDrawdownFromPnlCurve (rows.map (·.dailyPnl)) first.openingEquityUsdt =
        some metrics.mddPct := by
  obtain ⟨hchain, hreturns⟩ := dailyEquity_rows h
  have hmem : first ∈ rows := List.mem_of_mem_head? hfirst
  have hopen : 0 < first.openingEquityUsdt := hpos first hmem
  obtain ⟨last, hlast⟩ := Option.ne_none_iff_exists'.mp
    (List.getLast?_eq_none_iff.not.mpr (List.ne_nil_of_mem hmem))
  have hnone : ¬ rows.any fun r => r.navReturnPct.isNone := by
    intro hany
    obtain ⟨r, hr, hisNone⟩ := List.any_eq_true.mp hany
    have hisSome := hreturns r hr (hpos r hr)
    rw [Option.isNone_iff_eq_none.mp hisNone] at hisSome
    cases hisSome
  have hhead : ∀ r ∈ rows.head?, r.openingEquityUsdt = first.openingEquityUsdt := by
    intro r hr
    rw [hfirst] at hr
    cases hr
    rfl
  have hmdd := SameDrawdown.foldl hchain (s := ⟨first.openingEquityUsdt, 0⟩)
    (t := ⟨first.openingEquityUsdt, first.openingEquityUsdt, 0⟩) hhead
      ⟨rfl, rfl, (zero_mul _).symm, hopen⟩
  unfold computeMetrics
  rw [hfirst, hlast]
  dsimp only
  rw [if_neg hnone]
  refine ⟨_, rfl, ?_⟩
  rw [maxDrawdownFromPnlCurve, if_neg (by simpa using ⟨List.ne_nil_of_mem hmem, hopen⟩), hmdd]

end agree

/-- Four days; the first one ends 2 % lower. -/
theorem drawdowns_agree_twoTrades : ∃ rows metrics,
    dailyEquity sqliteJulianday twoTrades fourDays "V" 1000 none 400_000_000_000 0 3 = .ok rows ∧
    computeMetrics rows = .ok (some metrics) ∧
    maxDrawdownFromPnlCurve (rows.map (·.dailyPnl)) 1000 = some metrics.mddPct ∧
      metrics.mddPct = -2 := by
  have hrun : (dailyEquity sqliteJulianday twoTrades fourDays "V" 1000 none 400_000_000_000 0
      3).toOption.map (fun rows => (rows.map (·.openingEquityUsdt),
        maxDrawdownFromPnlCurve (rows.map (·.dailyPnl)) 1000)) =
      some ([1000, 980, 1010, 101578 / 100], some (-2)) := by
    decide +kernel
  cases h : dailyEquity sqliteJulianday twoTrades fourDays "V" 1000 none 400_000_000_000 0 3 with
  | error e =>
    rw [h] at hrun
    cases hrun
  | ok rows =>
    rw [h] at hrun
    obtain ⟨hopen, hmdd⟩ := Prod.mk.inj (Option.some.inj hrun)
    have hpos : ∀ r ∈ rows, 0 < r.openingEquityUsdt := fun r hr =>
      (by decide +kernel : ∀ x ∈ [1000, 980, 1010, 101578 / 100], (0 : ℚ) < x) _
        (hopen ▸ List.mem_map_of_mem hr)
    cases rows with
    | nil => cases hopen
    | cons first rows =>
      obtain ⟨metrics, hmetrics, hagree⟩ := drawdowns_agree h rfl hpos
      have hfirst : first.openingEquityUsdt = 1000 := (List.cons.inj hopen).1
      rw [hfirst] at hagree
      exact ⟨_, metrics, rfl, hmetrics, hagree, Option.some.inj (hagree.symm.trans hmdd)⟩

end P300
