import P300.Basic
import Mathlib.Data.Rat.Defs
import Mathlib.Algebra.Order.Ring.Rat
import Mathlib.Data.List.Nodup
import Mathlib.Data.List.Sort
import Mathlib.Data.List.TakeWhile

/-!
# The trade ledger

The tables `trades` and `trade_adjustments` of `strategies/support/trade_db.py`. A `Ledger` carries
the constraints of the schema (the primary key, `uix_trades_unique_key`, `UNIQUE(trade_id, seq)` and
`uix_adj_trade_date_type`), so a ledger that violates one cannot be built. Money and quantities are
rationals, `NULL` is `none`, an instant is its number of microseconds since the epoch (UTC) and a
UTC date its number of days. Free text that nothing reads back (`notes`, `order_ids`, `venue`,
`execution_mode`, `notes_json`) is left out.
-/

namespace P300

inductive Status
  | pending
  | open_
  | closed
  deriving DecidableEq, Repr

/-- `trade_adjustments.event_type`; `ALL_EVENT_TYPES` are all but `other`. -/
inductive EventType
  | open_
  | scaleUp
  | scaleDown
  | leverageAdjust
  | flip
  | close
  | other (text : String)
  deriving DecidableEq, Repr

/-- The events that end a trade. -/
def EventType.Terminal (e : EventType) : Prop := e = .close ∨ e = .flip

instance (e : EventType) : Decidable e.Terminal := inferInstanceAs (Decidable (_ ∨ _))

/-- The columns of `trades` that are written once, when the trade is opened. -/
structure TradeEntry where
  id : String
  series : String
  asset : String
  direction : Direction
  strategy : String
  regime : String
  allocationPct : ℚ
  leverage : Option ℚ
  entryTime : Time
  exitTime : Option Time
  /-- `none` when the text is missing or is no timestamp. -/
  actualEntryTime : Option Time
  entryPrice : Option ℚ
  sizeUsdt : Option ℚ
  qty : Option ℚ
  strategyVariant : String
  createdAt : Time
  parentPositionId : Option String
  uniqueKey : Option String
  deriving DecidableEq, Repr

/-- The columns of `trades` that an `UPDATE` may set. -/
structure TradeState where
  status : Status
  actualExitTime : Option Time
  exitPrice : Option ℚ
  pnlUsdt : Option ℚ
  pnlPct : Option ℚ
  resolution : Option String
  currentQty : Option ℚ
  currentLeverage : Option ℚ
  currentSizeUsdt : Option ℚ
  realizedPnlUsdt : Option ℚ
  avgEntryPrice : Option ℚ
  deriving DecidableEq, Repr

structure TradeRow extends TradeEntry, TradeState
  deriving DecidableEq, Repr

/-- The `SET` clause of an `UPDATE trades`. -/
abbrev TradeUpdate := TradeState → TradeState

/-- The row after the update. -/
def TradeRow.set (r : TradeRow) (u : TradeUpdate) : TradeRow :=
  { r with toTradeState := u r.toTradeState }

@[simp] theorem TradeRow.set_entry (r : TradeRow) (u : TradeUpdate) :
    (r.set u).toTradeEntry = r.toTradeEntry := rfl

@[simp] theorem TradeRow.set_state (r : TradeRow) (u : TradeUpdate) :
    (r.set u).toTradeState = u r.toTradeState := rfl

structure Adjustment where
  tradeId : String
  seq : Nat
  eventType : EventType
  eventTime : Time
  eventDate : Int
  qtyDelta : ℚ
  qtyAfter : Option ℚ
  leverageBefore : Option ℚ
  leverageAfter : Option ℚ
  marginDeltaUsdt : ℚ
  sizeUsdtAfter : Option ℚ
  price : Option ℚ
  feeUsdt : Option ℚ
  realizedPnlDeltaUsdt : Option ℚ
  deriving DecidableEq, Repr

/-- Rows in the order of their insertion. -/
structure Ledger where
  trades : List TradeRow
  adjustments : List Adjustment
  ids_nodup : (trades.map (·.id)).Nodup
  keys_nodup : (trades.filterMap (·.uniqueKey)).Nodup
  seqs_nodup : (adjustments.map fun a => (a.tradeId, a.seq)).Nodup
  days_nodup : (adjustments.map fun a => (a.tradeId, a.eventDate, a.eventType)).Nodup
  deriving DecidableEq

namespace Ledger

/-- What `init_db` creates. -/
def empty : Ledger := ⟨[], [], .nil, .nil, .nil, .nil⟩

@[ext] theorem ext {d d' : Ledger} (ht : d.trades = d'.trades)
    (ha : d.adjustments = d'.adjustments) : d = d' := by
  cases d; cases d'; cases ht; cases ha; rfl

/-! ## Queries -/

/-- `SELECT ... FROM trades WHERE id=?` -/
def trade? (tid : String) (d : Ledger) : Option TradeRow :=
  d.trades.find? fun r => r.id = tid

/-- `SELECT ... FROM trades WHERE id=? AND status='open'` -/
def openTrade? (tid : String) (d : Ledger) : Option TradeRow :=
  d.trades.find? fun r => r.id = tid ∧ r.status = .open_

/-- `SELECT id FROM trades WHERE unique_key = ?` -/
def idOfKey? (key : String) (d : Ledger) : Option String :=
  (d.trades.find? fun r => r.uniqueKey = some key).map (·.id)

/-- The adjustments of a trade in the order of their insertion. -/
def eventsOf (tid : String) (d : Ledger) : List Adjustment :=
  d.adjustments.filter fun a => a.tradeId = tid

/-- `SELECT * FROM trade_adjustments WHERE trade_id=? ORDER BY seq` -/
def getAdjustments (tid : String) (d : Ledger) : List Adjustment :=
  (d.eventsOf tid).insertionSort fun a b => a.seq ≤ b.seq

theorem openTrade?_eq_some {d : Ledger} {tid : String} {r : TradeRow}
    (h : d.openTrade? tid = some r) : r ∈ d.trades ∧ r.id = tid ∧ r.status = .open_ := by
  have hp := List.find?_some h
  exact ⟨List.mem_of_find?_eq_some h, by simpa using hp⟩

theorem trade?_eq_some {d : Ledger} {tid : String} {r : TradeRow} (h : d.trade? tid = some r) :
    r ∈ d.trades ∧ r.id = tid := by
  have hp := List.find?_some h
  exact ⟨List.mem_of_find?_eq_some h, by simpa using hp⟩

/-- The primary key determines the row. -/
theorem eq_of_id {d : Ledger} {r r' : TradeRow} (h : r ∈ d.trades) (h' : r' ∈ d.trades)
    (e : r.id = r'.id) : r = r' :=
  List.inj_on_of_nodup_map d.ids_nodup h h' e

theorem trade?_of_mem {d : Ledger} {r : TradeRow} (h : r ∈ d.trades) :
    d.trade? r.id = some r := by
  cases hf : d.trade? r.id with
  | none =>
    have := List.find?_eq_none.mp hf r h
    simp at this
  | some r' =>
    obtain ⟨hm, e⟩ := trade?_eq_some hf
    rw [eq_of_id hm h e]

/-! ## Statements -/

/-- The rows after `UPDATE trades SET ... WHERE id=? AND status='open'`. -/
def setOpen (tid : String) (u : TradeUpdate) (rows : List TradeRow) : List TradeRow :=
  rows.map fun r => if r.id = tid ∧ r.status = .open_ then r.set u else r

/-- An `UPDATE` keeps the rows and what they were opened with. -/
theorem setOpen_entries (tid : String) (u : TradeUpdate) (rows : List TradeRow) :
    (setOpen tid u rows).map (·.toTradeEntry) = rows.map (·.toTradeEntry) := by
  rw [setOpen, List.map_map]
  refine List.map_congr_left fun r _ => ?_
  simp only [Function.comp]
  split <;> rfl

theorem setOpen_ids (tid : String) (u : TradeUpdate) (rows : List TradeRow) :
    (setOpen tid u rows).map (·.id) = rows.map (·.id) := by
  have h := congrArg (List.map TradeEntry.id) (setOpen_entries tid u rows)
  rw [List.map_map, List.map_map] at h
  exact h

/-- `UPDATE trades SET ... WHERE id=? AND status='open'`, with the number of rows it matched. -/
def updateOpen (tid : String) (u : TradeUpdate) (d : Ledger) : Ledger × Nat :=
  ({ d with
      trades := setOpen tid u d.trades
      ids_nodup := by rw [setOpen_ids]; exact d.ids_nodup
      keys_nodup := by
        have := congrArg (List.filterMap TradeEntry.uniqueKey) (setOpen_entries tid u d.trades)
        rw [List.filterMap_map, List.filterMap_map] at this
        exact Eq.mpr (congrArg List.Nodup this) d.keys_nodup },
    d.trades.countP fun r => r.id = tid ∧ r.status = .open_)

/-- The outcome of an `INSERT INTO trades`. -/
inductive InsertOutcome
  | inserted
  | idTaken
  | keyTaken
  deriving DecidableEq

/-- `INSERT INTO trades`; a constraint violation leaves the table as it is. -/
def insertTrade (row : TradeRow) (d : Ledger) : Ledger × InsertOutcome :=
  if hid : row.id ∈ d.trades.map (·.id) then (d, .idTaken)
  else if hkey : ∃ k ∈ row.uniqueKey, k ∈ d.trades.filterMap (·.uniqueKey) then (d, .keyTaken)
  else ({ d with
      trades := d.trades ++ [row]
      ids_nodup := by
        rw [List.map_append, List.nodup_append]
        refine ⟨d.ids_nodup, by simp, ?_⟩
        rintro a ha b hb rfl
        rw [List.map_singleton, List.mem_singleton] at hb
        exact hid (hb ▸ ha)
      keys_nodup := by
        rw [List.filterMap_append, List.nodup_append]
        refine ⟨d.keys_nodup, ?_, ?_⟩
        · rw [List.filterMap_cons]
          split <;> simp
        · rintro a ha b hb rfl
          simp only [List.filterMap_cons, List.filterMap_nil] at hb
          cases hk : row.uniqueKey with
          | none => simp [hk] at hb
          | some k =>
            simp only [hk, List.mem_singleton] at hb
            exact hkey ⟨k, hk, hb ▸ ha⟩ }, .inserted)

/-- `INSERT INTO trade_adjustments`; `false` when a unique index refuses the row. -/
def insertAdjustment (a : Adjustment) (d : Ledger) : Ledger × Bool :=
  if hseq : (a.tradeId, a.seq) ∈ d.adjustments.map fun b => (b.tradeId, b.seq) then (d, false)
  else if hday : (a.tradeId, a.eventDate, a.eventType) ∈
      d.adjustments.map fun b => (b.tradeId, b.eventDate, b.eventType) then (d, false)
  else ({ d with
      adjustments := d.adjustments ++ [a]
      seqs_nodup := by
        rw [List.map_append, List.nodup_append]
        refine ⟨d.seqs_nodup, by simp, ?_⟩
        rintro b hb c hc rfl
        rw [List.map_singleton, List.mem_singleton] at hc
        exact hseq (hc ▸ hb)
      days_nodup := by
        rw [List.map_append, List.nodup_append]
        refine ⟨d.days_nodup, by simp, ?_⟩
        rintro b hb c hc rfl
        rw [List.map_singleton, List.mem_singleton] at hc
        exact hday (hc ▸ hb) }, true)

section updateOpen

variable {tid : String} {u : TradeUpdate} {d : Ledger}

@[simp] theorem updateOpen_adjustments : (d.updateOpen tid u).1.adjustments = d.adjustments := rfl

@[simp] theorem updateOpen_trades :
    (d.updateOpen tid u).1.trades = setOpen tid u d.trades := rfl

/-- The statement matches no row exactly when the trade is not open. -/
theorem updateOpen_rowcount : (d.updateOpen tid u).2 = 0 ↔ d.openTrade? tid = none := by
  simp [updateOpen, openTrade?, List.countP_eq_zero]

theorem updateOpen_of_none (h : d.openTrade? tid = none) : (d.updateOpen tid u).1 = d := by
  refine ext ?_ rfl
  have hn := List.find?_eq_none.mp h
  calc setOpen tid u d.trades
      = d.trades.map id := List.map_congr_left fun r hr => if_neg (by simpa using hn r hr)
    _ = d.trades := List.map_id _

end updateOpen

section insert

variable {row : TradeRow} {a : Adjustment} {d : Ledger}

/-- A row with a new id and a new key is appended. -/
theorem insertTrade_of_fresh (hid : row.id ∉ d.trades.map (·.id))
    (hkey : ∀ k, row.uniqueKey = some k → d.idOfKey? k = none) :
    (d.insertTrade row).2 = .inserted ∧ (d.insertTrade row).1.trades = d.trades ++ [row] ∧
      (d.insertTrade row).1.adjustments = d.adjustments := by
  have hk : ¬ ∃ k ∈ row.uniqueKey, k ∈ d.trades.filterMap (·.uniqueKey) := by
    rintro ⟨k, hk, hm⟩
    obtain ⟨r, hr, hrk⟩ := List.mem_filterMap.mp hm
    have := hkey k hk
    simp only [idOfKey?, Option.map_eq_none_iff, List.find?_eq_none] at this
    exact this r hr (by simpa using hrk)
  rw [insertTrade, dif_neg hid, dif_neg hk]
  exact ⟨rfl, rfl, rfl⟩

/-- A row that was inserted had a new id. -/
theorem insertTrade_of_inserted (h : (d.insertTrade row).2 = .inserted) :
    row.id ∉ d.trades.map (·.id) ∧ (d.insertTrade row).1.trades = d.trades ++ [row] := by
  unfold insertTrade at h ⊢
  split at h
  · cases h
  · next hid =>
    rw [dif_neg hid]
    split at h
    · cases h
    · next hkey => exact ⟨hid, by rw [dif_neg hkey]⟩

theorem insertTrade_adjustments : (d.insertTrade row).1.adjustments = d.adjustments := by
  unfold insertTrade
  split
  · rfl
  · split <;> rfl

@[simp] theorem insertAdjustment_trades : (d.insertAdjustment a).1.trades = d.trades := by
  unfold insertAdjustment
  split
  · rfl
  · split <;> rfl

/-- The insert appends the row, or a unique index refuses it and nothing changes. -/
theorem insertAdjustment_cases :
    (d.insertAdjustment a).2 = true ∧
        (d.insertAdjustment a).1.adjustments = d.adjustments ++ [a] ∨
      d.insertAdjustment a = (d, false) := by
  unfold insertAdjustment
  split
  · exact .inr rfl
  · split
    · exact .inr rfl
    · exact .inl ⟨rfl, rfl⟩

/-- A row whose number and whose type on its day are new is inserted. -/
theorem insertAdjustment_of_fresh (hseq : ∀ b ∈ d.eventsOf a.tradeId, b.seq ≠ a.seq)
    (hday : ∀ b ∈ d.eventsOf a.tradeId, b.eventType ≠ a.eventType) :
    (d.insertAdjustment a).2 = true ∧
      (d.insertAdjustment a).1.adjustments = d.adjustments ++ [a] := by
  have h1 : (a.tradeId, a.seq) ∉ d.adjustments.map fun b => (b.tradeId, b.seq) := by
    intro h
    obtain ⟨b, hb, e⟩ := List.mem_map.mp h
    obtain ⟨e1, e2⟩ := Prod.mk.inj e
    exact hseq b (by simp [eventsOf, hb, e1]) e2
  have h2 : (a.tradeId, a.eventDate, a.eventType) ∉
      d.adjustments.map fun b => (b.tradeId, b.eventDate, b.eventType) := by
    intro h
    obtain ⟨b, hb, e⟩ := List.mem_map.mp h
    obtain ⟨e1, e2⟩ := Prod.mk.inj e
    exact hday b (by simp [eventsOf, hb, e1]) (Prod.mk.inj e2).2
  rw [insertAdjustment, dif_neg h1, dif_neg h2]
  exact ⟨rfl, rfl⟩

end insert

/-! ## The next numbers -/

/-- `trade_adjustments._next_seq` -/
def nextSeq (tid : String) (d : Ledger) : Nat :=
  match ((d.eventsOf tid).map (·.seq)).max? with
  | none => 0
  | some m => m + 1

theorem seq_lt_nextSeq {d : Ledger} {tid : String} {b : Adjustment} (hb : b ∈ d.eventsOf tid) :
    b.seq < d.nextSeq tid := by
  have hm : b.seq ∈ (d.eventsOf tid).map (·.seq) := List.mem_map_of_mem hb
  unfold nextSeq
  cases h : ((d.eventsOf tid).map (·.seq)).max? with
  | none => rw [List.max?_eq_none_iff.mp h] at hm; cases hm
  | some m =>
    have := (List.max?_eq_some_iff.mp h).2 _ hm
    exact Nat.lt_succ_of_le this

/-- A trade's first `n` events are numbered from `0`, so the next one gets the number `n`. -/
theorem nextSeq_of_range {d : Ledger} {tid : String} {n : Nat}
    (h : (d.eventsOf tid).map (·.seq) = List.range n) : d.nextSeq tid = n := by
  unfold nextSeq
  rw [h]
  cases n with
  | zero => rfl
  | succ n =>
    have : (List.range (n + 1)).max? = some n := by
      rw [List.max?_eq_some_iff]
      exact ⟨by simp, fun b hb => Nat.le_of_lt_succ (List.mem_range.mp hb)⟩
    rw [this]

/-- `f"SJ-{n:04d}"` -/
def sjId (n : Nat) : String := String.ofList ('S' :: 'J' :: '-' :: zeroPad 4 n)

/-- `CAST(text AS INTEGER)` of unsigned text: the value of the leading digits. -/
def castInteger (text : List Char) : Nat := Nat.ofDigitChars 10 (text.takeWhile Char.isDigit) 0

/-- `CAST(SUBSTR(id, 4) AS INTEGER)` -/
def sjNumber (id : String) : Nat := castInteger (id.toList.drop 3)

/-- Reading the number of a minted id gives it back, also past four digits. -/
@[simp] theorem sjNumber_sjId (n : Nat) : sjNumber (sjId n) = n := by
  have ht : (sjId n).toList.drop 3 = zeroPad 4 n := by simp [sjId]
  rw [sjNumber, ht, castInteger, List.takeWhile_eq_self_iff.mpr fun c hc =>
    isDigit_of_mem_zeroPad hc, ofDigitChars_zeroPad]

/-- `trades._next_sj_id` -/
def nextSjId (d : Ledger) : String :=
  match ((d.trades.filter fun r => r.series = "SJ").map fun r => sjNumber r.id).max? with
  | none => sjId 1
  | some m => sjId (m + 1)

/-- The minted id is past every id of the series. -/
theorem nextSjId_spec (d : Ledger) : ∃ n, d.nextSjId = sjId n ∧
    ∀ r ∈ d.trades, r.series = "SJ" → sjNumber r.id < n := by
  unfold nextSjId
  split
  · next h =>
    refine ⟨1, rfl, fun r hr hs => ?_⟩
    have hm : sjNumber r.id ∈ (d.trades.filter fun r => r.series = "SJ").map fun r =>
        sjNumber r.id :=
      List.mem_map_of_mem (List.mem_filter.mpr ⟨hr, by simpa using hs⟩)
    rw [List.max?_eq_none_iff.mp h] at hm
    cases hm
  · next m h =>
    refine ⟨m + 1, rfl, fun r hr hs => Nat.lt_succ_of_le ?_⟩
    exact (List.max?_eq_some_iff.mp h).2 _
      (List.mem_map_of_mem (List.mem_filter.mpr ⟨hr, by simpa using hs⟩))

example : nextSjId empty = "SJ-0001" := by decide
example : sjNumber "SJ-10000" = 10000 := by decide

end Ledger

end P300
