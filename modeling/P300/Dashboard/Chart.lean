import Mathlib.Algebra.Order.Ring.Rat
import Mathlib.Order.Bounds.Basic
import P300.Basic
import P300.Lib.Grid
import P300.Lib.Sorted

/-!
# Chart bars

`_candle_window` and `candles` of `dashboard/queries.py`: the rows of a price table from the start
of a window on are put together to the bars of a coarser timeframe. The start comes from the clock
or from an open trade, and it need not be where a bar begins.
-/

namespace P300

/-! ## Cells -/

/-- A cell of a price column. -/
inductive Cell
  | null
  | num (x : ℚ)
  deriving DecidableEq, Repr

/-- A missing price compares with itself only. -/
instance : PartialOrder Cell where
  le
    | .null, .null => True
    | .num x, .num y => x ≤ y
    | _, _ => False
  le_refl a := by cases a <;> simp
  le_trans a b c hab hbc := by
    cases a <;> cases b <;> cases c <;> simp_all
    exact hab.trans hbc
  le_antisymm a b hab hba := by
    cases a <;> cases b <;> simp_all
    exact le_antisymm hab hba

/-- `max(a, b)` -/
def Cell.pyMax : Cell → Cell → Except String Cell
  | .num x, .num y => .ok (.num (max x y))
  | _, _ => .error "TypeError"

/-- `min(a, b)` -/
def Cell.pyMin : Cell → Cell → Except String Cell
  | .num x, .num y => .ok (.num (min x y))
  | _, _ => .error "TypeError"

/-- A row of a price table; the timestamp is its key, in seconds. -/
structure SourceRow where
  timestamp : Int
  open_ : Cell
  high : Cell
  low : Cell
  close : Cell

/-- The price tables by their names, each in the order of its key. -/
structure PriceTables where
  rows : String → List SourceRow
  sorted : ∀ table, (rows table).Pairwise fun r r' => r.timestamp < r'.timestamp

/-! ## The chart -/

/-- `_TF_SECONDS` -/
def tfSeconds : List (String × Int) := [("15m", 900), ("1h", 3600), ("4h", 14400), ("1d", 86400)]

/-- `_DEFAULT_BARS` -/
def defaultBars : List (String × Int) := [("15m", 3000), ("1h", 2000), ("4h", 1500), ("1d", 3000)]

/-- `_CANDLE_SOURCES` -/
def candleSources : List ((String × String) × (String × Int)) :=
  [(("BTC", "15m"), ("cd_futures_15m", 900)), (("BTC", "1h"), ("cd_futures_ohlcv", 3600)),
    (("BTC", "4h"), ("cd_futures_ohlcv", 3600)), (("BTC", "1d"), ("cd_futures_ohlcv", 3600)),
    (("ETH", "15m"), ("cd_futures_eth_15m", 900)), (("ETH", "1h"), ("cd_futures_eth_15m", 900)),
    (("ETH", "4h"), ("cd_futures_eth_15m", 900)), (("ETH", "1d"), ("cd_futures_eth_15m", 900))]

structure ChartBar where
  time : Int
  open_ : Cell
  high : Cell
  low : Cell
  close : Cell
  deriving DecidableEq

/-- The returned dictionary. -/
structure Chart where
  asset : String
  tf : String
  source : String
  bars : List ChartBar
  lastTime : Option Int
  serverTime : Int

/-- `_candle_window`; `oldest` is the entry of the oldest open trade of a bot in the asset, and
`bars` is not 0. -/
def candleWindow (oldest : Option Int) (secs bars after nowS : Int) : Int :=
  if after ≠ 0 then after
  else
    let start := nowS - bars * secs
    match oldest with
    | some oldest => if oldest ≠ 0 then min start (oldest - 2 * 86400) else start
    | none => start

def SourceRow.bar (r : SourceRow) (time : Int) : ChartBar := ⟨time, r.open_, r.high, r.low, r.close⟩

/-- The locals of the loop over the rows. -/
structure ChartWalk where
  cur : Option ChartBar := none
  out : List ChartBar := []

/-- The body of the loop. -/
def ChartWalk.step (secs : Int) (s : ChartWalk) (r : SourceRow) : Except String ChartWalk :=
  let b := Grid.floor secs r.timestamp
  match s.cur with
  | none => .ok { s with cur := some (r.bar b) }
  | some cur =>
    if cur.time ≠ b then .ok ⟨some (r.bar b), s.out ++ [cur]⟩
    else do
      let high ← cur.high.pyMax r.high
      let low ← cur.low.pyMin r.low
      return { s with cur := some { cur with high, low, close := r.close } }

/-- The bars of a coarser timeframe; those in progress are dropped from the end. -/
def bucketBars (secs nowS : Int) (rows : List SourceRow) : Except String (List ChartBar) := do
  let s ← rows.foldlM (ChartWalk.step secs) {}
  return (s.out ++ s.cur.toList).rdropWhile fun bar => bar.time + secs > nowS

/-- `(asset or "BTC").upper()` -/
def chartAsset (asset : String) : String := if asset = "" then "BTC" else asset.toUpper

/-- `candles`; `oldest` gives the oldest open entry of an asset. -/
def candles (tables : PriceTables) (oldest : String → Option Int) (asset tf : String)
    (bars after nowS : Int) : Except String Chart :=
  let asset := chartAsset asset
  match candleSources.lookup (asset, tf), tfSeconds.lookup tf, defaultBars.lookup tf with
  | some (table, native), some secs, some default => do
    let bars := if bars ≠ 0 then bars else default
    let start := candleWindow (oldest asset) secs bars after nowS
    let rows := (tables.rows table).filter fun r => r.timestamp ≥ start
    let out ← if secs = native then .ok (rows.map fun r => r.bar r.timestamp)
      else bucketBars secs nowS rows
    return ⟨asset, tf, table, out, out.getLast?.map (·.time), nowS⟩
  | _, _, _ => .error s!"unsupported asset/tf: {asset}/{tf}"

/-! ## Aggregates -/

/-- The bar has the first open, the highest high, the lowest low and the last close of the rows. -/
structure IsAggregate (bar : ChartBar) (rows : List SourceRow) : Prop where
  open_eq : rows.head?.map (·.open_) = some bar.open_
  high : IsGreatest {c | c ∈ rows.map (·.high)} bar.high
  low : IsLeast {c | c ∈ rows.map (·.low)} bar.low
  close_eq : rows.getLast?.map (·.close) = some bar.close

/-- The rows with a timestamp in `[time, time + secs)`. -/
def bucketRows (secs time : Int) (rows : List SourceRow) : List SourceRow :=
  rows.filter fun r => time ≤ r.timestamp ∧ r.timestamp < time + secs

theorem Cell.pyMax_ok {a b c : Cell} (h : a.pyMax b = .ok c) : a ≤ c ∧ b ≤ c ∧ (c = a ∨ c = b) := by
  cases a with
  | null => cases h
  | num x =>
    cases b with
    | null => cases h
    | num y =>
      cases h
      refine ⟨le_max_left x y, le_max_right x y, ?_⟩
      exact (max_choice x y).imp (congrArg _) (congrArg _)

theorem Cell.pyMin_ok {a b c : Cell} (h : a.pyMin b = .ok c) : c ≤ a ∧ c ≤ b ∧ (c = a ∨ c = b) := by
  cases a with
  | null => cases h
  | num x =>
    cases b with
    | null => cases h
    | num y =>
      cases h
      refine ⟨min_le_left x y, min_le_right x y, ?_⟩
      exact (min_choice x y).imp (congrArg _) (congrArg _)

theorem Cell.pyMax_of_ne_null {a b : Cell} (ha : a ≠ .null) (hb : b ≠ .null) :
    ∃ c, a.pyMax b = .ok c ∧ c ≠ .null := by
  cases a with
  | null => exact (ha rfl).elim
  | num x =>
    cases b with
    | null => exact (hb rfl).elim
    | num y => exact ⟨_, rfl, Cell.noConfusion⟩

theorem Cell.pyMin_of_ne_null {a b : Cell} (ha : a ≠ .null) (hb : b ≠ .null) :
    ∃ c, a.pyMin b = .ok c ∧ c ≠ .null := by
  cases a with
  | null => exact (ha rfl).elim
  | num x =>
    cases b with
    | null => exact (hb rfl).elim
    | num y => exact ⟨_, rfl, Cell.noConfusion⟩

/-- A row with both of its extremes. -/
def SourceRow.Priced (r : SourceRow) : Prop := r.high ≠ .null ∧ r.low ≠ .null

section extremes

variable {α : Type*} [PartialOrder α] {l l' : List α} {a b c : α}

theorem isGreatest_concat (h : IsGreatest {x | x ∈ l} a) (ha : a ≤ c) (hb : b ≤ c)
    (hc : c = a ∨ c = b) :
    IsGreatest {x | x ∈ l ++ [b]} c := by
  refine ⟨?_, fun x hx => ?_⟩
  · rcases hc with rfl | rfl
    · exact List.mem_append_left _ h.1
    · exact List.mem_append_right _ List.mem_cons_self
  · rcases List.mem_append.mp hx with hx | hx
    · exact (h.2 hx).trans ha
    · exact List.mem_singleton.mp hx ▸ hb

theorem isGreatest_append_iff (h : IsGreatest {x | x ∈ l'} a) :
    IsGreatest {x | x ∈ l ++ l'} a ↔ ∀ x ∈ l, ∃ y ∈ l', x ≤ y := by
  constructor
  · exact fun H x hx => ⟨a, h.1, H.2 (List.mem_append_left _ hx)⟩
  · refine fun H => ⟨List.mem_append_right _ h.1, fun x hx => ?_⟩
    rcases List.mem_append.mp hx with hx | hx
    · obtain ⟨y, hy, hxy⟩ := H x hx
      exact hxy.trans (h.2 hy)
    · exact h.2 hx

theorem isLeast_concat (h : IsLeast {x | x ∈ l} a) (ha : c ≤ a) (hb : c ≤ b) (hc : c = a ∨ c = b) :
    IsLeast {x | x ∈ l ++ [b]} c :=
  isGreatest_concat (α := αᵒᵈ) h ha hb hc

theorem isLeast_append_iff (h : IsLeast {x | x ∈ l'} a) :
    IsLeast {x | x ∈ l ++ l'} a ↔ ∀ x ∈ l, ∃ y ∈ l', y ≤ x :=
  isGreatest_append_iff (α := αᵒᵈ) h

end extremes

namespace IsAggregate

variable {bar bar' : ChartBar} {rows cut shown : List SourceRow} {r : SourceRow}

theorem single (r : SourceRow) (time : Int) : IsAggregate (r.bar time) [r] where
  open_eq := rfl
  high := by simp [SourceRow.bar]
  low := by simp [SourceRow.bar]
  close_eq := rfl

theorem concat (H : IsAggregate bar rows) {high low : Cell}
    (hhigh : bar.high.pyMax r.high = .ok high) (hlow : bar.low.pyMin r.low = .ok low) :
    IsAggregate { bar with high, low, close := r.close } (rows ++ [r]) where
  open_eq := by
    cases rows with
    | nil => cases H.open_eq
    | cons r' rows => exact H.open_eq
  high := by
    obtain ⟨ha, hb, hc⟩ := Cell.pyMax_ok hhigh
    rw [List.map_append]
    exact isGreatest_concat H.high ha hb hc
  low := by
    obtain ⟨ha, hb, hc⟩ := Cell.pyMin_ok hlow
    rw [List.map_append]
    exact isLeast_concat H.low ha hb hc
  close_eq := by rw [List.getLast?_concat, Option.map_some]

theorem ne_nil (H : IsAggregate bar rows) : rows ≠ [] := by
  rintro rfl
  cases H.open_eq

theorem unique (H : IsAggregate bar rows) (H' : IsAggregate bar' rows)
    (htime : bar.time = bar'.time) :
    bar = bar' := by
  have hopen := Option.some.inj (H.open_eq.symm.trans H'.open_eq)
  have hclose := Option.some.inj (H.close_eq.symm.trans H'.close_eq)
  have hhigh := H.high.unique H'.high
  have hlow := H.low.unique H'.low
  obtain ⟨_, _, _, _, _⟩ := bar
  obtain ⟨_, _, _, _, _⟩ := bar'
  dsimp only at htime hopen hclose hhigh hlow
  rw [htime, hopen, hclose, hhigh, hlow]

end IsAggregate

/-- Rows before others leave no mark on their aggregate: they begin at the open price that the
others begin at, and none of them is higher or lower than all the others. -/
structure Unmarked (cut shown : List SourceRow) : Prop where
  open_eq : cut.head?.map (·.open_) = shown.head?.map (·.open_)
  high : ∀ r ∈ cut, ∃ r' ∈ shown, r.high ≤ r'.high
  low : ∀ r ∈ cut, ∃ r' ∈ shown, r'.low ≤ r.low

theorem IsAggregate.append_iff {bar : ChartBar} {cut shown : List SourceRow}
    (H : IsAggregate bar shown) (hcut : cut ≠ []) :
    IsAggregate bar (cut ++ shown) ↔ Unmarked cut shown := by
  have hhead : (cut ++ shown).head? = cut.head? := by
    obtain ⟨r, cut, rfl⟩ := List.exists_cons_of_ne_nil hcut
    rfl
  have hlast : (cut ++ shown).getLast? = shown.getLast? := List.getLast?_append_of_ne_nil _ H.ne_nil
  have hhigh : IsGreatest {c | c ∈ (cut ++ shown).map (·.high)} bar.high ↔
      ∀ r ∈ cut, ∃ r' ∈ shown, r.high ≤ r'.high := by
    rw [List.map_append]
    simpa using isGreatest_append_iff (l := cut.map (·.high)) H.high
  have hlow : IsLeast {c | c ∈ (cut ++ shown).map (·.low)} bar.low ↔
      ∀ r ∈ cut, ∃ r' ∈ shown, r'.low ≤ r.low := by
    rw [List.map_append]
    simpa using isLeast_append_iff (l := cut.map (·.low)) H.low
  constructor
  · intro H'
    exact ⟨(hhead ▸ H'.open_eq).trans H.open_eq.symm, hhigh.mp H'.high, hlow.mp H'.low⟩
  · intro hcut
    exact ⟨hhead ▸ hcut.open_eq.trans H.open_eq, hhigh.mpr hcut.high, hlow.mpr hcut.low,
      hlast ▸ H.close_eq⟩

/-! ## The walk -/

namespace ChartWalk

/-- The bars so far. -/
def bars (s : ChartWalk) : List ChartBar := s.out ++ s.cur.toList

/-- What the walk knows of the rows it has read. -/
structure Tracks (secs : Int) (rows : List SourceRow) (s : ChartWalk) : Prop where
  ascending : s.bars.Pairwise fun bar bar' => bar.time < bar'.time
  whole : ∀ bar ∈ s.bars, IsAggregate bar (bucketRows secs bar.time rows)
  grid : ∀ bar ∈ s.bars, secs ∣ bar.time
  covered : ∀ r ∈ rows, ∃ bar ∈ s.bars, bar.time = Grid.floor secs r.timestamp
  nothing : s.cur = none → rows = [] ∧ s.out = []
  last : ∀ cur ∈ s.cur, ∀ r ∈ rows, Grid.floor secs r.timestamp ≤ cur.time

variable {secs : Int} {rows : List SourceRow} {s s' : ChartWalk} {r : SourceRow}

theorem mem_bucketRows_iff (hsecs : 0 < secs) {time : Int} (htime : secs ∣ time) :
    r ∈ bucketRows secs time rows ↔ r ∈ rows ∧ Grid.floor secs r.timestamp = time := by
  rw [bucketRows, List.mem_filter, decide_eq_true_iff, Grid.floor_eq_iff hsecs htime]

theorem bucketRows_concat (hsecs : 0 < secs) {time : Int} (htime : secs ∣ time) (r : SourceRow) :
    bucketRows secs time (rows ++ [r]) =
      if Grid.floor secs r.timestamp = time then bucketRows secs time rows ++ [r]
      else bucketRows secs time rows := by
  have hiff := Grid.floor_eq_iff (x := r.timestamp) hsecs htime
  rw [bucketRows, List.filter_append]
  by_cases h : Grid.floor secs r.timestamp = time
  · rw [if_pos h, List.filter_cons_of_pos (by simpa using hiff.mp h)]
    rfl
  · rw [if_neg h, List.filter_cons_of_neg (by simpa using mt hiff.mpr h), List.filter_nil,
      List.append_nil]
    rfl

theorem bucketRows_eq_nil (hsecs : 0 < secs) {time : Int} (htime : secs ∣ time)
    (h : ∀ r ∈ rows, Grid.floor secs r.timestamp ≠ time) : bucketRows secs time rows = [] := by
  refine List.eq_nil_iff_forall_not_mem.mpr fun r hr => ?_
  obtain ⟨hmem, heq⟩ := (mem_bucketRows_iff hsecs htime).mp hr
  exact h r hmem heq

/-- A bar begins no later than the bucket of a row that comes after all rows read. -/
theorem Tracks.le_floor (hsecs : 0 < secs) (H : s.Tracks secs rows) {bar : ChartBar}
    (hbar : bar ∈ s.bars) (hafter : ∀ r' ∈ rows, r'.timestamp < r.timestamp) :
    bar.time ≤ Grid.floor secs r.timestamp := by
  obtain ⟨r', hr'⟩ := List.exists_mem_of_ne_nil _ (H.whole bar hbar).ne_nil
  obtain ⟨hr', htime⟩ := (mem_bucketRows_iff hsecs (H.grid bar hbar)).mp hr'
  rw [← htime]
  exact Grid.floor_mono hsecs (hafter r' hr').le

/-- After a row the current bar is the one of its bucket, and all bars before it stay as they
are. -/
theorem Tracks.concat (hsecs : 0 < secs) {out : List ChartBar} {cur : ChartBar}
    (htime : cur.time = Grid.floor secs r.timestamp)
    (hcur : IsAggregate cur (bucketRows secs cur.time rows ++ [r]))
    (hout : out.Pairwise fun bar bar' => bar.time < bar'.time)
    (hbefore : ∀ bar ∈ out, bar.time < cur.time)
    (hwhole : ∀ bar ∈ out, IsAggregate bar (bucketRows secs bar.time rows))
    (hgrid : ∀ bar ∈ out, secs ∣ bar.time)
    (hcovered : ∀ r' ∈ rows, ∃ bar ∈ out ++ [cur], bar.time = Grid.floor secs r'.timestamp)
    (hlast : ∀ r' ∈ rows, Grid.floor secs r'.timestamp ≤ cur.time) :
    Tracks secs (rows ++ [r]) ⟨some cur, out⟩ := by
  have hdvd : secs ∣ cur.time := htime ▸ Grid.dvd_floor secs r.timestamp
  constructor
  · refine List.pairwise_append.mpr ⟨hout, List.pairwise_singleton .., fun bar hbar => ?_⟩
    exact List.forall_mem_singleton.mpr (hbefore bar hbar)
  · refine List.forall_mem_append.mpr ⟨fun bar hbar => ?_, List.forall_mem_singleton.mpr ?_⟩
    · rw [bucketRows_concat hsecs (hgrid bar hbar), if_neg (htime ▸ (hbefore bar hbar).ne')]
      exact hwhole bar hbar
    · rwa [bucketRows_concat hsecs hdvd, if_pos htime.symm]
  · exact List.forall_mem_append.mpr ⟨hgrid, List.forall_mem_singleton.mpr hdvd⟩
  · refine List.forall_mem_append.mpr ⟨hcovered, List.forall_mem_singleton.mpr ?_⟩
    exact ⟨cur, List.mem_append_right _ List.mem_cons_self, htime⟩
  · exact fun hnone => (Option.some_ne_none _ hnone).elim
  · intro _ hsome
    obtain rfl := Option.some.inj hsome
    exact List.forall_mem_append.mpr ⟨hlast, List.forall_mem_singleton.mpr htime.ge⟩

theorem Tracks.step (hsecs : 0 < secs) (H : s.Tracks secs rows)
    (hafter : ∀ r' ∈ rows, r'.timestamp < r.timestamp) (h : s.step secs r = .ok s') :
    s'.Tracks secs (rows ++ [r]) := by
  unfold ChartWalk.step at h
  cases hcur : s.cur with
  | none =>
    rw [hcur] at h
    cases h
    obtain ⟨rfl, hout⟩ := H.nothing hcur
    rw [hout]
    exact .concat hsecs rfl (.single r _) .nil (by simp) (by simp) (by simp) (by simp) (by simp)
  | some cur =>
    have hbars : s.bars = s.out ++ [cur] := by rw [ChartWalk.bars, hcur]; rfl
    have hmem : cur ∈ s.bars := hbars ▸ List.mem_append_right _ List.mem_cons_self
    obtain ⟨hasc, -, hbefore⟩ := List.pairwise_append.mp (hbars ▸ H.ascending)
    have hbefore : ∀ bar ∈ s.out, bar.time < cur.time := fun bar hbar =>
      hbefore bar hbar cur List.mem_cons_self
    rw [hcur] at h
    dsimp only at h
    split at h
    · next hne =>
      -- the row begins a new bar
      cases h
      have hlt : cur.time < Grid.floor secs r.timestamp :=
        lt_of_le_of_ne (H.le_floor hsecs hmem hafter) hne
      have hrows : ∀ r' ∈ rows, Grid.floor secs r'.timestamp < Grid.floor secs r.timestamp :=
        fun r' hr' => (H.last cur hcur r' hr').trans_lt hlt
      have hnew : IsAggregate (r.bar (Grid.floor secs r.timestamp))
          (bucketRows secs (Grid.floor secs r.timestamp) rows ++ [r]) := by
        rw [bucketRows_eq_nil hsecs (Grid.dvd_floor ..) fun r' hr' => (hrows r' hr').ne]
        exact .single r _
      rw [← hbars]
      refine .concat hsecs rfl hnew H.ascending ?_ H.whole H.grid (fun r' hr' => ?_)
        fun r' hr' => (hrows r' hr').le
      · rw [hbars]
        exact List.forall_mem_append.mpr
          ⟨fun bar hbar => (hbefore bar hbar).trans hlt, List.forall_mem_singleton.mpr hlt⟩
      · obtain ⟨bar, hbar, htime⟩ := H.covered r' hr'
        exact ⟨bar, List.mem_append_left _ hbar, htime⟩
    · next heq =>
      -- the row continues the current bar
      obtain ⟨high, hhigh, h⟩ := of_bind_ok h
      obtain ⟨low, hlow, h⟩ := of_bind_ok h
      cases h
      have hout : ∀ bar ∈ s.out, bar ∈ s.bars := fun bar hbar => hbars ▸ List.mem_append_left _ hbar
      refine .concat hsecs (not_not.mp heq) ((H.whole cur hmem).concat hhigh hlow) hasc hbefore
        (fun bar hbar => H.whole bar (hout bar hbar)) (fun bar hbar => H.grid bar (hout bar hbar))
        (fun r' hr' => ?_) (H.last cur hcur)
      obtain ⟨bar, hbar, htime⟩ := H.covered r' hr'
      rcases List.mem_append.mp (hbars ▸ hbar) with hbar | hbar
      · exact ⟨bar, List.mem_append_left _ hbar, htime⟩
      · obtain rfl := List.mem_singleton.mp hbar
        exact ⟨_, List.mem_append_right _ List.mem_cons_self, htime⟩

theorem Tracks.run (hsecs : 0 < secs) {rest : List SourceRow} (H : s.Tracks secs rows)
    (hsorted : (rows ++ rest).Pairwise fun r r' => r.timestamp < r'.timestamp)
    (h : rest.foldlM (ChartWalk.step secs) s = .ok s') : s'.Tracks secs (rows ++ rest) := by
  induction rest generalizing s rows with
  | nil =>
    cases h
    rwa [List.append_nil]
  | cons r rest ih =>
    rw [List.foldlM_cons] at h
    obtain ⟨s₁, hs₁, h⟩ := of_bind_ok h
    have hafter : ∀ r' ∈ rows, r'.timestamp < r.timestamp := fun r' hr' =>
      (List.pairwise_append.mp hsorted).2.2 r' hr' r List.mem_cons_self
    rw [List.append_cons] at hsorted ⊢
    exact ih (H.step hsecs hafter hs₁) hsorted h

/-- The current bar has both of its extremes. -/
def Priced (s : ChartWalk) : Prop := ∀ cur ∈ s.cur, cur.high ≠ .null ∧ cur.low ≠ .null

theorem Priced.step {s : ChartWalk} (H : s.Priced) {r : SourceRow} (hr : r.Priced) (secs : Int) :
    ∃ s', s.step secs r = .ok s' ∧ s'.Priced := by
  have hnew : ∀ time, ∀ bar ∈ some (r.bar time), bar.high ≠ .null ∧ bar.low ≠ .null := by
    rintro time _ ⟨⟩
    exact hr
  unfold ChartWalk.step
  dsimp only
  cases hcur : s.cur with
  | none => exact ⟨_, rfl, hnew _⟩
  | some cur =>
    dsimp only
    split
    · exact ⟨_, rfl, hnew _⟩
    · obtain ⟨hhigh, hlow⟩ := H cur hcur
      obtain ⟨high, hmax, hhigh'⟩ := Cell.pyMax_of_ne_null hhigh hr.1
      obtain ⟨low, hmin, hlow'⟩ := Cell.pyMin_of_ne_null hlow hr.2
      rw [hmax, hmin]
      refine ⟨_, rfl, ?_⟩
      rintro _ ⟨⟩
      exact ⟨hhigh', hlow'⟩

theorem tracks_nil (secs : Int) : Tracks secs [] {} where
  ascending := .nil
  whole _ h := (List.not_mem_nil h).elim
  grid _ h := (List.not_mem_nil h).elim
  covered _ h := (List.not_mem_nil h).elim
  nothing _ := ⟨rfl, rfl⟩
  last _ h := (Option.not_mem_none _ h).elim

end ChartWalk

/-! ## The bars of the rows -/

/-- The bars are those of the buckets of the rows that are over at the clock. -/
structure Bucketed (secs nowS : Int) (rows : List SourceRow) (bars : List ChartBar) : Prop where
  ascending : bars.Pairwise fun bar bar' => bar.time < bar'.time
  grid : ∀ bar ∈ bars, secs ∣ bar.time
  whole : ∀ bar ∈ bars, IsAggregate bar (bucketRows secs bar.time rows)
  elapsed : ∀ bar ∈ bars, bar.time + secs ≤ nowS
  covered : ∀ r ∈ rows, Grid.floor secs r.timestamp + secs ≤ nowS →
    ∃ bar ∈ bars, bar.time = Grid.floor secs r.timestamp

theorem bucketBars_bucketed {secs nowS : Int} {rows : List SourceRow} {bars : List ChartBar}
    (hsecs : 0 < secs) (hsorted : rows.Pairwise fun r r' => r.timestamp < r'.timestamp)
    (h : bucketBars secs nowS rows = .ok bars) : Bucketed secs nowS rows bars := by
  obtain ⟨s, hs, h⟩ := of_bind_ok h
  cases h
  have H : s.Tracks secs rows := (ChartWalk.tracks_nil secs).run hsecs hsorted hs
  have hmono : s.bars.Pairwise fun bar bar' : ChartBar =>
      decide (bar.time + secs > nowS) = true → decide (bar'.time + secs > nowS) = true := by
    refine H.ascending.imp fun hlt h => ?_
    rw [decide_eq_true_iff] at h ⊢
    exact h.trans (add_lt_add_left hlt secs)
  have hmem : ∀ bar, bar ∈ s.bars.rdropWhile (fun bar => bar.time + secs > nowS) ↔
      bar ∈ s.bars ∧ bar.time + secs ≤ nowS := by
    intro bar
    rw [Sorted.mem_rdropWhile_iff hmono, decide_eq_true_iff, not_lt]
  refine ⟨H.ascending.sublist (List.rdropWhile_prefix _ _).sublist, fun bar hbar => ?_,
    fun bar hbar => ?_, fun bar hbar => ((hmem bar).mp hbar).2, fun r hr hover => ?_⟩
  · exact H.grid bar ((hmem bar).mp hbar).1
  · exact H.whole bar ((hmem bar).mp hbar).1
  · obtain ⟨bar, hbar, htime⟩ := H.covered r hr
    exact ⟨bar, (hmem bar).mpr ⟨hbar, htime ▸ hover⟩, htime⟩

/-- The loop raises for no rows that all have their extremes. -/
theorem bucketBars_ok {rows : List SourceRow} (hrows : ∀ r ∈ rows, r.Priced) (secs nowS : Int) :
    ∃ bars, bucketBars secs nowS rows = .ok bars := by
  have hstart : ChartWalk.Priced {} := fun _ h => (Option.not_mem_none _ h).elim
  obtain ⟨s, hs, -⟩ := foldlM_inv_ok (P := ChartWalk.Priced) (l := rows)
    (fun s r hr H => H.step (hrows r hr) secs) hstart
  rw [bucketBars, hs]
  exact ⟨_, rfl⟩

/-! ## Where the rows start -/

/-- The rows from a start on. -/
def rowsFrom (start : Int) (rows : List SourceRow) : List SourceRow :=
  rows.filter fun r => r.timestamp ≥ start

/-- The rows of the bucket of `start` that lie before it. -/
def cutRows (secs start : Int) (rows : List SourceRow) : List SourceRow :=
  rows.filter fun r => Grid.floor secs start ≤ r.timestamp ∧ r.timestamp < start

/-- The rows of the bucket of `start` from it on. -/
def shownRows (secs start : Int) (rows : List SourceRow) : List SourceRow :=
  rows.filter fun r => start ≤ r.timestamp ∧ r.timestamp < Grid.floor secs start + secs

/-- The bucket of `start` has no rows before it, or no bar, or those rows leave no mark on its
bar. -/
def StartWhole (secs nowS start : Int) (rows : List SourceRow) : Prop :=
  cutRows secs start rows = [] ∨ shownRows secs start rows = [] ∨
    nowS < Grid.floor secs start + secs ∨
    Unmarked (cutRows secs start rows) (shownRows secs start rows)

section start

variable {secs nowS start time : Int} {rows : List SourceRow} {bars : List ChartBar}

theorem bucketRows_rowsFrom (h : start ≤ time) :
    bucketRows secs time (rowsFrom start rows) = bucketRows secs time rows := by
  rw [bucketRows, rowsFrom, List.filter_filter]
  refine List.filter_congr fun r _ => ?_
  rw [← Bool.decide_and, decide_eq_decide]
  exact and_iff_left_of_imp fun hr => h.trans hr.1

theorem bucketRows_rowsFrom_floor (hsecs : 0 < secs) :
    bucketRows secs (Grid.floor secs start) (rowsFrom start rows) = shownRows secs start rows := by
  rw [bucketRows, rowsFrom, List.filter_filter]
  refine List.filter_congr fun r _ => ?_
  rw [← Bool.decide_and, decide_eq_decide]
  have hle := Grid.floor_le hsecs start
  exact ⟨fun hr => ⟨hr.2, hr.1.2⟩, fun hr => ⟨⟨hle.trans hr.1, hr.2⟩, hr.1⟩⟩

theorem cutRows_append_shownRows (hsecs : 0 < secs)
    (hsorted : rows.Pairwise fun r r' => r.timestamp < r'.timestamp) :
    bucketRows secs (Grid.floor secs start) rows =
      cutRows secs start rows ++ shownRows secs start rows := by
  have hle := Grid.floor_le hsecs start
  have hlt := Grid.lt_floor_add hsecs start
  have hmono : (bucketRows secs (Grid.floor secs start) rows).Pairwise fun r r' =>
      r'.timestamp < start → r.timestamp < start :=
    (hsorted.filter _).imp fun hrr' hr' => hrr'.trans hr'
  rw [← Sorted.filter_append_filter hmono, bucketRows, List.filter_filter, List.filter_filter]
  congr 1 <;> refine List.filter_congr fun r _ => ?_ <;> rw [← Bool.decide_and, decide_eq_decide]
  · exact ⟨fun hr => ⟨hr.2.1, hr.1⟩, fun hr => ⟨hr.2, hr.1, hr.2.trans hlt⟩⟩
  · rw [not_lt]
    exact ⟨fun hr => ⟨hr.1, hr.2.2⟩, fun hr => ⟨hr.1, hle.trans hr.1, hr.2⟩⟩

/-- A bar that begins before the start is the one of its bucket. -/
theorem Bucketed.time_eq (hsecs : 0 < secs) (H : Bucketed secs nowS (rowsFrom start rows) bars)
    {bar : ChartBar} (hbar : bar ∈ bars) (hlt : bar.time < start) :
    bar.time = Grid.floor secs start := by
  obtain ⟨r, hr⟩ := List.exists_mem_of_ne_nil _ (H.whole bar hbar).ne_nil
  rw [bucketRows, List.mem_filter, decide_eq_true_iff] at hr
  have hfrom : start ≤ r.timestamp := of_decide_eq_true (List.mem_filter.mp hr.1).2
  exact ((Grid.floor_eq_iff hsecs (H.grid bar hbar)).mpr ⟨hlt.le, hfrom.trans_lt hr.2.2⟩).symm

/-- If the bucket of the start has rows from it on and has ended, it has a bar. -/
theorem Bucketed.exists_first (hsecs : 0 < secs) (H : Bucketed secs nowS (rowsFrom start rows) bars)
    (hshown : shownRows secs start rows ≠ []) (hover : Grid.floor secs start + secs ≤ nowS) :
    ∃ bar ∈ bars, bar.time = Grid.floor secs start := by
  obtain ⟨r, hr⟩ := List.exists_mem_of_ne_nil _ hshown
  rw [shownRows, List.mem_filter, decide_eq_true_iff] at hr
  obtain ⟨hr, hle, hlt⟩ := hr
  have hfloor : Grid.floor secs r.timestamp = Grid.floor secs start :=
    (Grid.floor_eq_iff hsecs (Grid.dvd_floor ..)).mpr ⟨(Grid.floor_le hsecs start).trans hle, hlt⟩
  rw [← hfloor] at hover ⊢
  exact H.covered r (List.mem_filter.mpr ⟨hr, decide_eq_true hle⟩) hover

/-- The bars from a start on have all rows of their buckets if and only if the start cuts nothing
off. -/
theorem Bucketed.whole_iff (hsecs : 0 < secs)
    (hsorted : rows.Pairwise fun r r' => r.timestamp < r'.timestamp)
    (H : Bucketed secs nowS (rowsFrom start rows) bars) :
    (∀ bar ∈ bars, IsAggregate bar (bucketRows secs bar.time rows)) ↔
      StartWhole secs nowS start rows := by
  have hsplit : bucketRows secs (Grid.floor secs start) rows =
      cutRows secs start rows ++ shownRows secs start rows :=
    cutRows_append_shownRows hsecs hsorted
  have hfirst : ∀ bar ∈ bars, bar.time = Grid.floor secs start →
      IsAggregate bar (shownRows secs start rows) := by
    intro bar hbar htime
    rw [← bucketRows_rowsFrom_floor hsecs, ← htime]
    exact H.whole bar hbar
  constructor
  · intro hwhole
    by_cases hcut : cutRows secs start rows = []
    · exact .inl hcut
    by_cases hshown : shownRows secs start rows = []
    · exact .inr (.inl hshown)
    by_cases hover : nowS < Grid.floor secs start + secs
    · exact .inr (.inr (.inl hover))
    obtain ⟨bar, hbar, htime⟩ := H.exists_first hsecs hshown (not_lt.mp hover)
    have hall : IsAggregate bar (cutRows secs start rows ++ shownRows secs start rows) := by
      rw [← hsplit, ← htime]
      exact hwhole bar hbar
    exact .inr (.inr (.inr (((hfirst bar hbar htime).append_iff hcut).mp hall)))
  · intro hstart bar hbar
    by_cases htime : start ≤ bar.time
    · rw [← bucketRows_rowsFrom htime]
      exact H.whole bar hbar
    · have heq := H.time_eq hsecs hbar (not_le.mp htime)
      have hshown := hfirst bar hbar heq
      rw [heq, hsplit]
      rcases hstart with hcut | hnil | hover | hun
      · rwa [hcut]
      · exact absurd hnil hshown.ne_nil
      · exact absurd (heq ▸ H.elapsed bar hbar) hover.not_ge
      · by_cases hcut : cutRows secs start rows = []
        · rwa [hcut]
        · exact (hshown.append_iff hcut).mpr hun

theorem startWhole_of_dvd (h : secs ∣ start) : StartWhole secs nowS start rows := by
  refine .inl (List.filter_eq_nil_iff.mpr fun r _ => ?_)
  rw [Grid.floor_of_dvd h, decide_eq_true_iff, not_and, not_lt]
  exact id

end start

/-! ## A fetch -/

/-- What a chart is to show of the rows of its table; `after` is not 0 in a refetch. -/
structure ChartSound (tables : PriceTables) (table asset tf : String) (secs : Int)
    (res : Chart) : Prop where
  whole : ∀ bar ∈ res.bars, IsAggregate bar (bucketRows secs bar.time (tables.rows table))
  ascending : res.bars.Pairwise fun bar bar' => bar.time < bar'.time
  refetch : ∀ oldest bars nowS res', ∀ t ∈ res.lastTime, t ≠ 0 →
    candles tables oldest asset tf bars t nowS = .ok res' →
    ∀ bar ∈ res.bars, ∀ bar' ∈ res'.bars, bar.time = bar'.time → bar = bar'

section fetch

variable {tables : PriceTables} {oldest : String → Option Int} {asset tf table : String}
  {bars after nowS secs native default : Int} {res : Chart}

theorem tfSeconds_pos (h : tfSeconds.lookup tf = some secs) : 0 < secs := by
  have hall : ∀ p ∈ tfSeconds, 0 < p.2 := by decide
  obtain ⟨l, l', heq, -⟩ := List.lookup_eq_some_iff.mp h
  exact hall (tf, secs) (heq ▸ List.mem_append_right _ List.mem_cons_self)

theorem candles_bucketed (hsource : candleSources.lookup (chartAsset asset, tf) =
      some (table, native))
    (hsecs : tfSeconds.lookup tf = some secs) (hdefault : defaultBars.lookup tf = some default)
    (hcoarse : native < secs) (h : candles tables oldest asset tf bars after nowS = .ok res) :
    Bucketed secs nowS (rowsFrom (candleWindow (oldest (chartAsset asset)) secs
        (if bars ≠ 0 then bars else default) after nowS) (tables.rows table)) res.bars ∧
      res.lastTime = res.bars.getLast?.map (·.time) := by
  unfold candles at h
  dsimp only at h
  rw [hsource, hsecs, hdefault] at h
  dsimp only at h
  rw [if_neg hcoarse.ne'] at h
  obtain ⟨out, hout, h⟩ := of_bind_ok h
  cases h
  exact ⟨bucketBars_bucketed (tfSeconds_pos hsecs) ((tables.sorted table).filter _) hout, rfl⟩

theorem candles_ok (hsource : candleSources.lookup (chartAsset asset, tf) = some (table, native))
    (hsecs : tfSeconds.lookup tf = some secs) (hdefault : defaultBars.lookup tf = some default)
    (hrows : secs = native ∨ ∀ r ∈ rowsFrom (candleWindow (oldest (chartAsset asset)) secs
      (if bars ≠ 0 then bars else default) after nowS) (tables.rows table), r.Priced) :
    ∃ res, candles tables oldest asset tf bars after nowS = .ok res := by
  unfold candles
  dsimp only
  rw [hsource, hsecs, hdefault]
  dsimp only
  by_cases hnative : secs = native
  · rw [if_pos hnative]
    exact ⟨_, rfl⟩
  · obtain ⟨out, hout⟩ := bucketBars_ok (hrows.resolve_left hnative) secs nowS
    rw [rowsFrom] at hout
    rw [if_neg hnative, hout]
    exact ⟨_, rfl⟩

/-- A chart of a coarser timeframe is sound if and only if no row that marks its first bar lies
before its start. -/
theorem candles_sound_iff (hsource : candleSources.lookup (chartAsset asset, tf) =
      some (table, native))
    (hsecs : tfSeconds.lookup tf = some secs) (hdefault : defaultBars.lookup tf = some default)
    (hcoarse : native < secs) (h : candles tables oldest asset tf bars after nowS = .ok res) :
    ChartSound tables table asset tf secs res ↔
      StartWhole secs nowS (candleWindow (oldest (chartAsset asset)) secs
        (if bars ≠ 0 then bars else default) after nowS) (tables.rows table) := by
  obtain ⟨H, hlast⟩ := candles_bucketed hsource hsecs hdefault hcoarse h
  have hpos : 0 < secs := tfSeconds_pos hsecs
  have hiff := H.whole_iff hpos (tables.sorted table)
  refine ⟨fun hsound => hiff.mp hsound.whole, fun hstart => ?_⟩
  have hwhole := hiff.mpr hstart
  refine ⟨hwhole, H.ascending, fun oldest' bars' nowS' res' t ht hne h' bar hbar bar' hbar' htime =>
    ?_⟩
  obtain ⟨H', -⟩ := candles_bucketed hsource hsecs hdefault hcoarse h'
  -- a refetch starts where a bar begins
  have haligned : secs ∣ t := by
    rw [hlast] at ht
    obtain ⟨last, hmem, rfl⟩ := Option.map_eq_some_iff.mp ht
    exact H.grid last (List.mem_of_getLast? hmem)
  rw [candleWindow, if_pos hne] at H'
  have hwhole' :=
    (H'.whole_iff hpos (tables.sorted table)).mpr (startWhole_of_dvd haligned) bar' hbar'
  exact (hwhole bar hbar).unique (htime ▸ hwhole') htime

/-- Four hourly rows; a chart of one bar of 4 hours that is drawn at 05:00 starts with the row of
01:00. -/
def cutTables : PriceTables where
  rows table :=
    if table = "cd_futures_ohlcv" then
      [⟨1704067200, .num 40, .num 49, .num 38, .num 42⟩,
        ⟨1704070800, .num 42, .num 44, .num 41, .num 43⟩,
        ⟨1704074400, .num 43, .num 46, .num 40, .num 45⟩,
        ⟨1704078000, .num 45, .num 47, .num 44, .num 46⟩]
    else []
  sorted table := by
    split
    · decide
    · exact .nil

/-- A chart of two bars starts before the rows. -/
theorem candles_sound_iff_twoBars : ∃ res,
    candles cutTables (fun _ => none) "" "4h" 2 0 1704085200 = .ok res ∧
    ChartSound cutTables "cd_futures_ohlcv" "" "4h" 14400 res := by
  refine ⟨_, rfl, ?_⟩
  refine (@candles_sound_iff cutTables (fun _ => none) "" "4h" "cd_futures_ohlcv" 2 0
    1704085200 14400 3600
    1500 _ rfl rfl rfl (by decide) rfl).mpr (.inl ?_)
  decide +kernel

/-- The bar of 00:00 lacks the row of 00:00, which a refetch from it reads. -/
theorem candles_cut_first_bar : ∃ res res',
    candles cutTables (fun _ => none) "" "4h" 1 0 1704085200 = .ok res ∧
    res.bars = [⟨1704067200, .num 42, .num 47, .num 40, .num 46⟩] ∧
    candles cutTables (fun _ => none) "" "4h" 1 1704067200 1704085200 = .ok res' ∧
    res'.bars = [⟨1704067200, .num 40, .num 49, .num 38, .num 46⟩] ∧
    ¬ ChartSound cutTables "cd_futures_ohlcv" "" "4h" 14400 res := by
  refine ⟨_, _, rfl, rfl, rfl, rfl, fun H => ?_⟩
  have hopen := (H.whole _ List.mem_cons_self).open_eq
  have hopen : some (Cell.num 40) = some (Cell.num 42) := hopen
  cases Cell.num.inj (Option.some.inj hopen)

end fetch

end P300
