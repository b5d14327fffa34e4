import Mathlib.Data.Rat.Floor
import Mathlib.Algebra.Order.Ring.Rat
import P300.Lib.Dict
import P300.Regime.Ema

/-!
# The weekly crossover position map

`ema_position.compute_ema_position_map`: hourly bars are put into buckets of 168 hours, two moving
averages run over the closes of the complete buckets, and each day of a held position is labelled
with its side. A cross at week `i` is acted on at the start of week `i + 1`, but only once that week
is complete; the days of the forming week are labelled meanwhile with the position before the cross.

A date is a number of days since the epoch in place of its ISO text.
-/

namespace P300

/-- An hourly bar `(ts, o, h, l, c, v)`. -/
structure HourlyBar where
  /-- seconds -/
  ts : Int
  open_ : ℚ
  high : ℚ
  low : ℚ
  close : ℚ
  volume : ℚ
  deriving DecidableEq

/-- `datetime.fromtimestamp(ts, tz=timezone.utc).date()` -/
def timestampDate (ts : Int) : Int := ts / 86_400

/-- A complete week `(dt_iso, open, high, low, close)`. -/
structure WeeklyBar where
  date : Int
  open_ : ℚ
  high : ℚ
  low : ℚ
  close : ℚ
  deriving DecidableEq

/-! ## Weekly buckets -/

/-- The complete weeks and the bars of the forming one. -/
structure WeeklyBuckets where
  out : List WeeklyBar
  bucket : List HourlyBar

/-- The body of `aggregate_weekly`'s loop; `bucket_start` is the time of the bucket's first bar. -/
def WeeklyBuckets.add (s : WeeklyBuckets) (bar : HourlyBar) : WeeklyBuckets :=
  let first := s.bucket.headD bar
  let bucketStart := first.ts
  let elapsedHours : ℚ := (bar.ts - bucketStart : Int) / 3600 + 1
  if 168 ≤ elapsedHours then
    { out := s.out ++ [{
        date := timestampDate bucketStart
        open_ := first.open_
        high := s.bucket.foldl (fun m b => max m b.high) bar.high
        low := s.bucket.foldl (fun m b => min m b.low) bar.low
        close := bar.close }]
      bucket := [] }
  else { s with bucket := s.bucket ++ [bar] }

/-- The loop of `aggregate_weekly`. -/
def weeklyBuckets (hourly : List HourlyBar) : WeeklyBuckets :=
  hourly.foldl WeeklyBuckets.add ⟨[], []⟩

/-- `ema_position.aggregate_weekly` -/
def aggregateWeekly (hourly : List HourlyBar) : List WeeklyBar := (weeklyBuckets hourly).out

/-! ## Crosses -/

/-- `fast_ema[i] > slow_ema[i]`, unless one of them is `nan`. -/
def fastAbove (fastEma slowEma : List (Option ℚ)) (i : ℕ) : Option Bool := do
  let fast ← (fastEma[i]?).join
  let slow ← (slowEma[i]?).join
  return slow < fast

inductive PositionSide
  | long
  | short
  deriving DecidableEq

/-- The label of a day. -/
def PositionSide.label : PositionSide → Int
  | .long => 1
  | .short => -1

/-- A held position: `position`, `entry_idx` and `entry_date`, which are set and cleared
together. -/
structure HeldPosition where
  position : PositionSide
  entryIdx : ℕ
  entryDate : Int

/-- What the walk over the weeks carries. -/
structure EmaWalk where
  pos : Dict Int Int
  held : Option HeldPosition

/-- The days from `start` to `stop`, both included, get the label `side`. -/
def spread (pos : Dict Int Int) (start stop : Int) (side : Int) : Dict Int Int :=
  (List.range (stop + 1 - start).toNat).foldl (fun pos (k : ℕ) => pos.set (start + k) side) pos

/-- The body of the loop of `compute_ema_position_map` at week `i`. -/
def EmaWalk.step (weekly : List WeeklyBar) (fastEma slowEma : List (Option ℚ))
    (s : EmaWalk) (i : ℕ) :
    EmaWalk :=
  match fastAbove fastEma slowEma i, fastAbove fastEma slowEma (i - 1), weekly[i + 1]? with
  | some fa, some faPrev, some next =>
    let crossUp := fa && !faPrev
    let crossDown := !fa && faPrev
    -- an opposing cross closes the position on the next week's first date
    let s := match s.held with
      | some held =>
        if (held.position = .long ∧ crossDown) ∨ (held.position = .short ∧ crossUp) then
          ⟨spread s.pos held.entryDate next.date held.position.label, none⟩
        else s
      | none => s
    if crossUp ∧ s.held.isNone then { s with held := some ⟨.long, i + 1, next.date⟩ }
    else if crossDown ∧ s.held.isNone then { s with held := some ⟨.short, i + 1, next.date⟩ }
    else s
  -- the warm-up (`i + 1` is in range)
  | _, _, _ => s

/-- The open trade is spread through the last bar's date. -/
def EmaWalk.finish (hourly : List HourlyBar) (weekly : List WeeklyBar) (s : EmaWalk) :
    Dict Int Int :=
  match s.held, hourly.getLast?, weekly.getLast? with
  | some held, some lastBar, some lastWeek =>
    let effectiveEnd := max (timestampDate lastBar.ts) lastWeek.date
    spread s.pos held.entryDate effectiveEnd held.position.label
  | _, _, _ => s.pos

/-- `ema_position.compute_ema_position_map` -/
def computeEmaPositionMap (hourly : List HourlyBar) (fast slow : ℕ) :
    Except String (Dict Int Int) := do
  let weekly := aggregateWeekly hourly
  if weekly.length < slow + 2 then return .empty
  let closes := weekly.map (·.close)
  let fastEma ← emaCalc closes fast
  let slowEma ← emaCalc closes slow
  let warmup := slow + 1
  let walk := (List.range' warmup (weekly.length - 1 - warmup)).foldl
    (EmaWalk.step weekly fastEma slowEma) ⟨.empty, none⟩
  return walk.finish hourly weekly

end P300
