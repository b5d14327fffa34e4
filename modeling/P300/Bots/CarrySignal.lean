import Mathlib.Algebra.Order.Field.Basic
import P300.Equity.Funding
import P300.Lib.KeyTable

/-!
# The signal of the carry bot

`bots/carry/strategy/signal.py` up to `_evaluate_today`: the funding of each complete day with the
closes of spot and perp, the average of a week that lets a pair in and the sum of thirty days that
takes it out. Nothing of the running day is read.
-/

namespace P300

/-! ## Parameters -/

/-- `ASSET` -/
inductive CarryAsset
  | btc
  | eth
  deriving DecidableEq, Repr

def CarryAsset.name : CarryAsset → String
  | .btc => "BTC"
  | .eth => "ETH"

/-- Of an entry of `PRICE_SOURCES`, the units per second and the filter of the rows. -/
structure PriceSource where
  perSecond : Int
  rowFilter : Int → Bool := fun _ => true

/-- `PRICE_SOURCES[asset]["spot"]` -/
def CarryAsset.spot : CarryAsset → PriceSource
  | .btc => { perSecond := 1 }
  | .eth => { perSecond := 1000, rowFilter := fun openTime => openTime / 60_000 % 1440 ≥ 1430 }

/-- `PRICE_SOURCES[asset]["perp"]` -/
def CarryAsset.perp : CarryAsset → PriceSource
  | .btc => { perSecond := 1 }
  | .eth => { perSecond := 1 }

/-- `FR_WINDOW_DAYS` -/
def frWindowDays : ℕ := 7

/-- `FR_ENTRY_THRESHOLD` -/
def frEntryThreshold : ℚ := 0

/-- `EXIT_CUM_DAYS` -/
def exitCumDays : ℕ := 30

/-- `EXIT_CUM_THRESHOLD_PCT` -/
def exitCumThresholdPct : ℚ := -1 / 2

/-! ## The days -/

/-- The tables of the asset: the rates at the settlements, the closes of spot and perp. A table of
settlements that is missing has no rows. -/
structure CarryTables where
  funding : KeyTable Int (Option ℚ) := .empty
  spot : KeyTable Int (Option ℚ) := .empty
  perp : KeyTable Int (Option ℚ) := .empty

/-- The rates that a group of `daily_sums_pct` sums and counts. -/
def dayRates (t : KeyTable Int (Option ℚ)) (sinceTs untilTs day : Int) : List ℚ :=
  t.rows.filterMap fun row =>
    if sinceTs ≤ row.1 ∧ row.1 ≤ untilTs ∧ row.1 % 28_800 = 0 ∧ row.1 / 86_400 = day then row.2
    else none

/-- `daily_sums_pct(asset, since_ts, until_ts, complete_only=True).get(day)` -/
def dailySumPct (t : KeyTable Int (Option ℚ)) (sinceTs untilTs day : Int) : Option ℚ :=
  let rates := dayRates t sinceTs untilTs day
  if 3 ≤ rates.length then some (rates.sum * 100) else none

/-- `_daily_closes(...).get(day)` -/
def dailyClose (src : PriceSource) (t : KeyTable Int (Option ℚ)) (sinceTs upperTs day : Int) :
    Option ℚ :=
  (t.rows.filterMap fun row =>
    if sinceTs * src.perSecond ≤ row.1 ∧ row.1 ≤ upperTs * src.perSecond ∧ src.rowFilter row.1 ∧
      row.1 / (86_400 * src.perSecond) = day
    then row.2.filter (· ≠ 0) else none).getLast?

/-- A record of `_load_recent_daily_funding`. -/
structure CarryRecord where
  date : Int
  dailyFundingPct : ℚ
  spotClose : ℚ
  perpClose : ℚ
  deriving DecidableEq

/-- The days from `a` to `b`. -/
def daysFrom (a b : Int) : List Int := (List.range (b + 1 - a).toNat).map fun (i : ℕ) => a + i

/-- The record of a day that has its three settlements and both closes. -/
def carryRecord (asset : CarryAsset) (t : CarryTables) (sinceTs upperTs day : Int) :
    Option CarryRecord := do
  let dailyFundingPct ← dailySumPct t.funding sinceTs upperTs day
  let spotClose ← dailyClose asset.spot t.spot sinceTs upperTs day
  let perpClose ← dailyClose asset.perp t.perp sinceTs upperTs day
  return ⟨day, dailyFundingPct, spotClose, perpClose⟩

/-- `clock.now_ts` -/
def nowTs (now : Time) : Int := now.tdiv 1_000_000

/-- `_load_recent_daily_funding`, which reads the clock at `now` and again for `today`. -/
def loadRecentDailyFunding (asset : CarryAsset) (t : CarryTables) (now : Time) (today : Int)
    (days : ℕ) : List CarryRecord :=
  let upperTs := nowTs now
  let sinceTs := upperTs - (days + 2) * 86_400
  ((daysFrom (sinceTs / 86_400) (upperTs / 86_400)).filter (· ≠ today)).filterMap
    (carryRecord asset t sinceTs upperTs)

/-! ## The signal of a day -/

structure CarrySignal where
  date : Int
  dailyFundingPct : ℚ
  fr7dAvgPct : ℚ
  entryOk : Bool
  cumFundingPct : Option ℚ
  exitTrigger : Bool
  spotClose : ℚ
  perpClose : ℚ

/-- The last `n` values. -/
def lastN (n : ℕ) (values : List ℚ) : List ℚ := values.drop (values.length - n)

/-- `_evaluate_today`; `avg[-1]` is there, as there are more records than days in the window. -/
def evaluateToday (records : List CarryRecord) : Option CarrySignal :=
  match records.getLast? with
  | none => none
  | some today =>
    if records.length < frWindowDays + 1 then none
    else
      let funding := records.map (·.dailyFundingPct)
      let avg := (lastN frWindowDays funding).sum / frWindowDays
      let cum :=
        if exitCumDays ≤ funding.length then some (lastN exitCumDays funding).sum else none
      some {
        date := today.date
        dailyFundingPct := today.dailyFundingPct
        fr7dAvgPct := avg
        entryOk := avg > frEntryThreshold
        cumFundingPct := cum
        exitTrigger := ∃ c ∈ cum, c < exitCumThresholdPct
        spotClose := today.spotClose
        perpClose := today.perpClose }

/-! ## What a day reads -/

section days

variable {asset : CarryAsset} {t t' : CarryTables} {sinceTs upperTs day today : Int} {now : Time}
  {days : ℕ} {r : CarryRecord}

theorem mem_daysFrom {a b : Int} : day ∈ daysFrom a b ↔ a ≤ day ∧ day ≤ b := by
  rw [daysFrom, List.mem_map]
  constructor
  · rintro ⟨i, hi, rfl⟩
    rw [List.mem_range] at hi
    omega
  · intro h
    refine ⟨(day - a).toNat, List.mem_range.mpr ?_, ?_⟩ <;> omega

/-- The tables have the same rows before the midnight of the day. -/
structure SameBefore (asset : CarryAsset) (today : Int) (t t' : CarryTables) : Prop where
  funding : ∀ ts < today * 86_400, t.funding.get? ts = t'.funding.get? ts
  spot : ∀ ts < today * (86_400 * asset.spot.perSecond), t.spot.get? ts = t'.spot.get? ts
  perp : ∀ ts < today * (86_400 * asset.perp.perSecond), t.perp.get? ts = t'.perp.get? ts

theorem dailyClose_congr {src : PriceSource} (hsrc : 0 < src.perSecond)
    {rows rows' : KeyTable Int (Option ℚ)} (hday : day < today)
    (h : ∀ ts < today * (86_400 * src.perSecond), rows.get? ts = rows'.get? ts) :
    dailyClose src rows sinceTs upperTs day = dailyClose src rows' sinceTs upperTs day := by
  rw [dailyClose, dailyClose]
  refine congrArg List.getLast? (KeyTable.filterMap_rows_congr (fun row hrow => if_neg ?_) h)
  rintro ⟨-, -, -, hdate⟩
  have hle := Int.le_ediv_of_mul_le (by omega : 0 < 86_400 * src.perSecond) hrow
  omega

/-- A record of an earlier day is made of rows of that day. -/
theorem SameBefore.carryRecord (h : SameBefore asset today t t') (hday : day < today) :
    carryRecord asset t sinceTs upperTs day = carryRecord asset t' sinceTs upperTs day := by
  have hfunding : dayRates t.funding sinceTs upperTs day =
      dayRates t'.funding sinceTs upperTs day := by
    refine KeyTable.filterMap_rows_congr (fun row hrow => if_neg ?_) h.funding
    rintro ⟨-, -, -, hdate⟩
    omega
  have hspot := @dailyClose_congr sinceTs upperTs day today asset.spot
    (by cases asset <;> decide) _ _ hday h.spot
  have hperp := @dailyClose_congr sinceTs upperTs day today asset.perp
    (by cases asset <;> decide) _ _ hday h.perp
  rw [P300.carryRecord, P300.carryRecord, dailySumPct, dailySumPct, hfunding, hspot, hperp]

/-- No record looks at the running day. -/
theorem SameBefore.records (h : SameBefore asset today t t')
    (htoday : nowTs now / 86_400 ≤ today) :
    loadRecentDailyFunding asset t now today days =
      loadRecentDailyFunding asset t' now today days := by
  refine List.filterMap_congr fun day hmem => h.carryRecord ?_
  obtain ⟨hday, hne⟩ := List.mem_filter.mp hmem
  have hle := (mem_daysFrom.mp hday).2
  have hne' : day ≠ today := of_decide_eq_true hne
  omega

end days

/-! ## The funding of the records -/

section funding

variable {asset : CarryAsset} {t : CarryTables} {today : Int} {now : Time} {days : ℕ}

/-- The same value at each of the first multiples of a step. -/
def steadyRows (step : ℕ) (hstep : 0 < step) (n : ℕ) (v : ℚ) : KeyTable Int (Option ℚ) where
  rows := (List.range n).map fun i => (((step * i : ℕ) : Int), some v)
  sorted := List.pairwise_map.mpr <| List.pairwise_lt_range.imp fun h =>
    Int.ofNat_lt.mpr (Nat.mul_lt_mul_of_pos_left h hstep)

/-- Six weeks at one rate. -/
def steadyTables (rate : ℚ) : CarryTables where
  funding := steadyRows 28_800 (by decide) 126 rate
  spot := steadyRows 86_400 (by decide) 42 50_000
  perp := steadyRows 86_400 (by decide) 42 50_010

/-- An hour into the fortieth day. -/
def steadyNow : Time := 40 * 86_400_000_000 + 3_600_000_000

end funding

end P300
