import P300.Basic

/-!
# Minute candles

The tables `btc_1m` and `eth_1m`, which the stop path walks and the equity curve marks open
positions with.
-/

namespace P300

/-- A row of a minute table; a cell that is not a finite number is `none`. -/
structure Candle where
  /-- milliseconds -/
  openTime : Int
  open_ : Option ℚ
  high : Option ℚ
  low : Option ℚ
  close : Option ℚ
  deriving DecidableEq

/-- The rows of a minute table by their primary key. -/
structure CandleTable where
  rows : List Candle
  sorted : rows.Pairwise fun c c' => c.openTime < c'.openTime

/-- A table without rows. -/
def CandleTable.empty : CandleTable := ⟨[], .nil⟩

/-- `SELECT … WHERE open_time >= ? AND open_time <= ? ORDER BY open_time` -/
def CandleTable.between (table : CandleTable) (start stop : Int) : List Candle :=
  table.rows.filter fun c => start ≤ c.openTime ∧ c.openTime ≤ stop

/-- `SELECT MAX(open_time)` -/
def CandleTable.latest (table : CandleTable) : Option Int := (table.rows.map (·.openTime)).max?

/-- `SELECT … WHERE open_time <= ? ORDER BY open_time DESC LIMIT 1` -/
def CandleTable.lastUpTo (table : CandleTable) (ms : Int) : Option Candle :=
  (table.rows.filter fun c => c.openTime ≤ ms).getLast?

end P300
