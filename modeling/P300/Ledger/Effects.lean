import P300.Ledger.Trades

/-!
# What a lifecycle call writes

Every helper that commits a change does one of two things, or one after the other: it updates an
open row and records an event on it (`Ledger.amend`), or it inserts a new row and records its `OPEN`
event (`Ledger.spawn`). `Call.run_cases` lists, for a call that runs by itself, which change each
helper can commit and under which guards; what the helpers keep is proved from that list.
-/

namespace P300

open TxnStore

namespace Ledger

variable {d : Ledger} {tid : String} {u : TradeUpdate} {now : Time} {e : RecordArgs}
  {row : TradeRow}

/-- The columns that no `UPDATE` touches, in the order of insertion. -/
def entries (d : Ledger) : List TradeEntry := d.trades.map (·.toTradeEntry)

/-- `record_adjustment` inside an open transaction. -/
def record (now : Time) (e : RecordArgs) (d : Ledger) : Ledger × Bool :=
  d.insertAdjustment (e.row now (d.nextSeq e.tradeId))

/-- The row that `record` appends, or nothing when a unique index refuses it. -/
def recorded (now : Time) (e : RecordArgs) (d : Ledger) : List Adjustment :=
  if (d.record now e).2 then [e.row now (d.nextSeq e.tradeId)] else []

/-- An update of the open row `tid` with its event. -/
def amend (tid : String) (u : TradeUpdate) (now : Time) (e : RecordArgs) (d : Ledger) : Ledger :=
  ((d.updateOpen tid u).1.record now e).1

/-- A new row with its event. -/
def spawn (row : TradeRow) (now : Time) (e : RecordArgs) (d : Ledger) : Ledger :=
  ((d.insertTrade row).1.record now e).1

theorem nextSeq_congr {d' : Ledger} (h : d'.adjustments = d.adjustments) (tid : String) :
    d'.nextSeq tid = d.nextSeq tid := by
  simp only [nextSeq, eventsOf, h]

theorem insertAdjustment_congr {d' : Ledger} (h : d'.adjustments = d.adjustments)
    (a : Adjustment) : (d'.insertAdjustment a).2 = (d.insertAdjustment a).2 := by
  unfold insertAdjustment
  simp only [h]
  split
  · rfl
  · split <;> rfl

theorem recorded_congr {d' : Ledger} (h : d'.adjustments = d.adjustments) :
    d'.recorded now e = d.recorded now e := by
  have hr : (d'.record now e).2 = (d.record now e).2 := by
    rw [record, record, nextSeq_congr h, insertAdjustment_congr h]
  rw [recorded, recorded, hr, nextSeq_congr h]

@[simp] theorem record_trades : (d.record now e).1.trades = d.trades := insertAdjustment_trades

theorem record_adjustments :
    (d.record now e).1.adjustments = d.adjustments ++ d.recorded now e := by
  unfold recorded record
  rcases insertAdjustment_cases (d := d) (a := e.row now (d.nextSeq e.tradeId)) with h | h
  · rw [h.2, if_pos h.1]
  · rw [h]
    simp

/-- An event whose type is new for its trade is always recorded. -/
theorem recorded_of_new (h : ∀ b ∈ d.eventsOf e.tradeId, b.eventType ≠ e.eventType) :
    d.recorded now e = [e.row now (d.nextSeq e.tradeId)] := by
  refine if_pos ?_
  refine (insertAdjustment_of_fresh (fun b hb => ?_) h).1
  exact Nat.ne_of_lt (seq_lt_nextSeq hb)

theorem recorded_tradeId {b : Adjustment} (h : b ∈ d.recorded now e) :
    b = e.row now (d.nextSeq e.tradeId) := by
  unfold recorded at h
  split at h
  · exact List.mem_singleton.mp h
  · cases h

/-! ## `amend` -/

@[simp] theorem amend_trades : (d.amend tid u now e).trades = setOpen tid u d.trades :=
  record_trades

@[simp] theorem amend_adjustments :
    (d.amend tid u now e).adjustments = d.adjustments ++ d.recorded now e := by
  rw [amend, record_adjustments, updateOpen_adjustments, recorded_congr updateOpen_adjustments]

@[simp] theorem amend_entries : (d.amend tid u now e).entries = d.entries := by
  rw [entries, amend_trades, setOpen_entries, entries]

/-- The rows of an amended ledger: the updated one, and the others as they were. -/
theorem mem_amend {r r' : TradeRow} (hr : d.openTrade? tid = some r)
    (h : r' ∈ (d.amend tid u now e).trades) : r' = r.set u ∨ r' ∈ d.trades ∧ r'.id ≠ tid := by
  rw [amend_trades, setOpen] at h
  obtain ⟨r₀, h₀, rfl⟩ := List.mem_map.mp h
  obtain ⟨hm, rfl, ho⟩ := openTrade?_eq_some hr
  split
  · next hc => rw [eq_of_id h₀ hm hc.1]; exact .inl rfl
  · next hc =>
    refine .inr ⟨h₀, fun e => hc ⟨e, ?_⟩⟩
    rw [eq_of_id h₀ hm e, ho]

theorem set_mem_amend {r : TradeRow} (hr : d.openTrade? tid = some r) :
    r.set u ∈ (d.amend tid u now e).trades := by
  obtain ⟨hm, rfl, ho⟩ := openTrade?_eq_some hr
  rw [amend_trades]
  exact List.mem_map.mpr ⟨r, hm, if_pos ⟨rfl, ho⟩⟩

/-- An update that closes the row leaves no open row. -/
theorem openTrade?_amend {r : TradeRow} (hr : d.openTrade? tid = some r)
    (hu : (r.set u).status ≠ .open_) : (d.amend tid u now e).openTrade? tid = none := by
  cases h : (d.amend tid u now e).openTrade? tid with
  | none => rfl
  | some r' =>
    obtain ⟨hm, hid, ho⟩ := openTrade?_eq_some h
    rcases mem_amend hr hm with rfl | ⟨-, hne⟩
    · exact absurd ho hu
    · exact absurd hid hne

theorem trade?_amend {r : TradeRow} (hr : d.openTrade? tid = some r) :
    (d.amend tid u now e).trade? tid = some (r.set u) := by
  have hm : r.set u ∈ (d.amend tid u now e).trades := set_mem_amend hr
  have h := trade?_of_mem hm
  obtain ⟨-, hid, -⟩ := openTrade?_eq_some hr
  rwa [show (r.set u).id = tid from hid] at h

theorem mem_amend_of_ne {r : TradeRow} (h : r ∈ d.trades) (hne : r.id ≠ tid) :
    r ∈ (d.amend tid u now e).trades := by
  rw [amend_trades]
  exact List.mem_map.mpr ⟨r, h, if_neg fun hc => hne hc.1⟩

theorem eventsOf_append (es : List Adjustment) {d' : Ledger}
    (h : d'.adjustments = d.adjustments ++ es) (t : String) :
    d'.eventsOf t = d.eventsOf t ++ es.filter fun a => a.tradeId = t := by
  rw [eventsOf, h, List.filter_append, eventsOf]

theorem filter_recorded (t : String) :
    (d.recorded now e).filter (fun a => a.tradeId = t) =
      if e.tradeId = t then d.recorded now e else [] := by
  unfold recorded
  split <;> simp [RecordArgs.row, List.filter_cons]

theorem eventsOf_amend (t : String) : (d.amend tid u now e).eventsOf t =
    d.eventsOf t ++ if e.tradeId = t then d.recorded now e else [] := by
  rw [eventsOf_append _ amend_adjustments, filter_recorded]

/-! ## `spawn` -/

/-- The new row has an id and a key that no row has, and the id no event has either. -/
structure Unused (d : Ledger) (row : TradeRow) : Prop where
  id : row.id ∉ d.trades.map (·.id)
  key : ∀ k, row.uniqueKey = some k → d.idOfKey? k = none
  events : d.eventsOf row.id = []

section spawn

variable (h : d.Unused row)

include h

theorem Unused.spawn_trades : (d.spawn row now e).trades = d.trades ++ [row] := by
  rw [spawn, record_trades, (insertTrade_of_fresh h.id h.key).2.1]

theorem Unused.spawn_entries :
    (d.spawn row now e).entries = d.entries ++ [row.toTradeEntry] := by
  rw [entries, h.spawn_trades, List.map_append, List.map_singleton, entries]

theorem Unused.spawn_adjustments (he : e.tradeId = row.id) :
    (d.spawn row now e).adjustments = d.adjustments ++ [e.row now 0] := by
  have hev : d.eventsOf e.tradeId = [] := he ▸ h.events
  rw [spawn, record_adjustments, insertTrade_adjustments, recorded_congr insertTrade_adjustments,
    recorded_of_new (by simp [hev]), nextSeq_of_range (n := 0) (by simp [hev])]

theorem Unused.eventsOf_spawn (he : e.tradeId = row.id) (t : String) :
    (d.spawn row now e).eventsOf t =
      if row.id = t then [e.row now 0] else d.eventsOf t := by
  rw [eventsOf_append _ (h.spawn_adjustments he)]
  split
  · next ht => subst ht; simp [h.events, RecordArgs.row, he]
  · next ht => simp [RecordArgs.row, he, ht]

end spawn

/-! ## Identity -/

/-- The ledger has a trade `tid`. -/
def Has (d : Ledger) (tid : String) : Prop := ∃ x ∈ d.entries, x.id = tid

/-- Ids are minted in increasing order, exactly the trades have an `OPEN` event with the number `0`,
and a parent is a trade of the ledger. -/
structure Minted (d : Ledger) : Prop where
  sj : ∀ x ∈ d.entries, x.series = "SJ" ∧ x.id = sjId (sjNumber x.id)
  ascending : d.entries.Pairwise fun x y => sjNumber x.id < sjNumber y.id
  owned : ∀ b ∈ d.adjustments, d.Has b.tradeId
  opened : ∀ x ∈ d.entries,
    ∃ b ∈ d.adjustments, b.tradeId = x.id ∧ b.seq = 0 ∧ b.eventType = .open_
  parents : ∀ x ∈ d.entries, ∀ p, x.parentPositionId = some p → d.Has p

/-- Trades and events are only ever added. -/
structure Grows (d d' : Ledger) : Prop where
  entries : d.entries <+: d'.entries
  adjustments : d.adjustments <+: d'.adjustments

theorem Minted.empty : Minted empty where
  sj _ h := nomatch h
  ascending := .nil
  owned _ h := nomatch h
  opened _ h := nomatch h
  parents _ h := nomatch h

theorem Grows.refl (d : Ledger) : d.Grows d := ⟨List.prefix_rfl, List.prefix_rfl⟩

theorem Grows.trans {d' d'' : Ledger} (h : d.Grows d') (h' : d'.Grows d'') : d.Grows d'' :=
  ⟨h.entries.trans h'.entries, h.adjustments.trans h'.adjustments⟩

theorem Grows.has {d' : Ledger} (h : d.Grows d') (ht : d.Has tid) : d'.Has tid := by
  obtain ⟨x, hx, e⟩ := ht
  exact ⟨x, h.entries.subset hx, e⟩

theorem has_of_mem {r : TradeRow} (h : r ∈ d.trades) : d.Has r.id :=
  ⟨r.toTradeEntry, List.mem_map_of_mem h, rfl⟩

theorem has_of_openTrade? {r : TradeRow} (h : d.openTrade? tid = some r) : d.Has tid := by
  obtain ⟨hm, rfl, -⟩ := openTrade?_eq_some h
  exact has_of_mem hm

theorem has_iff : d.Has tid ↔ tid ∈ d.trades.map (·.id) := by
  simp [Has, entries]

theorem grows_amend : d.Grows (d.amend tid u now e) :=
  ⟨by rw [amend_entries], by rw [amend_adjustments]; exact List.prefix_append ..⟩

theorem Minted.amend (h : d.Minted) (he : d.Has e.tradeId) : (d.amend tid u now e).Minted := by
  have hg : d.Grows (d.amend tid u now e) := grows_amend
  have hx : (d.amend tid u now e).entries = d.entries := amend_entries
  refine ⟨?_, ?_, fun b hb => hg.has ?_, fun x hm => ?_, fun x hm p hp => hg.has ?_⟩
  · rw [hx]; exact h.sj
  · rw [hx]; exact h.ascending
  · rw [amend_adjustments] at hb
    rcases List.mem_append.mp hb with hb | hb
    · exact h.owned b hb
    · rw [recorded_tradeId hb]; exact he
  · rw [hx] at hm
    obtain ⟨b, hb, hb'⟩ := h.opened x hm
    exact ⟨b, hg.adjustments.subset hb, hb'⟩
  · exact h.parents x (hx ▸ hm) p hp

theorem Minted.not_has_nextSjId (h : d.Minted) : ¬ d.Has d.nextSjId := by
  rintro ⟨x, hx, e⟩
  obtain ⟨n, hn, hlt⟩ := nextSjId_spec d
  obtain ⟨r, hr, rfl⟩ := List.mem_map.mp hx
  have := hlt r hr (h.sj _ hx).1
  rw [e, hn, sjNumber_sjId] at this
  exact Nat.lt_irrefl n this

/-- A row under the next id is unused, as long as its key is. -/
theorem Minted.unused (h : d.Minted) (hid : row.id = d.nextSjId)
    (hkey : ∀ k, row.uniqueKey = some k → d.idOfKey? k = none) : d.Unused row where
  id := by rw [← has_iff, hid]; exact h.not_has_nextSjId
  key := hkey
  events := by
    refine List.filter_eq_nil_iff.mpr fun b hb hc => h.not_has_nextSjId ?_
    rw [← hid, ← of_decide_eq_true hc]
    exact h.owned b hb

theorem Unused.grows (h : d.Unused row) (he : e.tradeId = row.id) :
    d.Grows (d.spawn row now e) :=
  ⟨by rw [h.spawn_entries]; exact List.prefix_append ..,
    by rw [h.spawn_adjustments he]; exact List.prefix_append ..⟩

theorem Minted.spawn (h : d.Minted) (hu : d.Unused row) (hid : row.id = d.nextSjId)
    (hs : row.series = "SJ") (hp : ∀ p, row.parentPositionId = some p → d.Has p)
    (he : e.tradeId = row.id) (het : e.eventType = .open_) : (d.spawn row now e).Minted := by
  have hg : d.Grows (d.spawn row now e) := hu.grows he
  have hrow : (d.spawn row now e).Has row.id :=
    ⟨row.toTradeEntry, by rw [hu.spawn_entries]; simp, rfl⟩
  have hmem : ∀ x ∈ (d.spawn row now e).entries, x ∈ d.entries ∨ x = row.toTradeEntry := by
    intro x hx
    rw [hu.spawn_entries] at hx
    simpa using hx
  obtain ⟨n, hn, hlt⟩ := nextSjId_spec d
  refine ⟨fun x hx => ?_, ?_, fun b hb => ?_, fun x hx => ?_, fun x hx p hxp => hg.has ?_⟩
  · rcases hmem x hx with hx | rfl
    · exact h.sj x hx
    · exact ⟨hs, by rw [hid, hn, sjNumber_sjId]⟩
  · rw [hu.spawn_entries, List.pairwise_append]
    refine ⟨h.ascending, List.pairwise_singleton .., fun x hx y hy => ?_⟩
    rw [List.mem_singleton.mp hy, hid, hn, sjNumber_sjId]
    obtain ⟨r, hr, rfl⟩ := List.mem_map.mp hx
    exact hlt r hr (h.sj _ hx).1
  · rw [hu.spawn_adjustments he] at hb
    rcases List.mem_append.mp hb with hb | hb
    · exact hg.has (h.owned b hb)
    · rw [List.mem_singleton.mp hb, show (e.row now 0).tradeId = row.id from he]
      exact hrow
  · rcases hmem x hx with hx | rfl
    · obtain ⟨b, hb, hb'⟩ := h.opened x hx
      exact ⟨b, hg.adjustments.subset hb, hb'⟩
    · exact ⟨e.row now 0, by rw [hu.spawn_adjustments he]; simp, he, rfl, het⟩
  · rcases hmem x hx with hx | rfl
    · exact h.parents x hx p hxp
    · exact hp p hxp

end Ledger

open Ledger

/-! ## Runs of the helpers -/

section runs

variable {d w : Ledger} {txn : Option Ledger} {tid : String} {u : TradeUpdate} {now : Time}
  {e : RecordArgs}

/-- The helpers only record known event types. -/
theorem recordAdjustment_runWith (he : ∀ text, e.eventType ≠ .other text)
    (k : Bool → Prog Ledger Reply) : (recordAdjustment now e k).runWith (some w) d =
      (k (w.record now e).2).runWith (some (w.record now e).1) d := by
  unfold recordAdjustment
  split
  · next h => exact absurd h (he _)
  · rfl

theorem record_updateOpen_snd :
    ((d.updateOpen tid u).1.record now e).2 = true ↔ d.recorded now e ≠ [] := by
  have h : (d.updateOpen tid u).1.recorded now e = d.recorded now e :=
    recorded_congr updateOpen_adjustments
  rw [← h, recorded]
  split <;> simp_all

theorem resize_run (he : ∀ text, e.eventType ≠ .other text) : (resize tid u now e).run d =
    if d.recorded now e = [] then (d, .bool false) else (d.amend tid u now e, .bool true) := by
  rw [resize, Prog.run, Prog.runWith_exec, recordAdjustment_runWith he]
  simp only [Option.getD_none, record_updateOpen_snd]
  by_cases h : d.recorded now e = []
  · rw [if_pos h, if_neg (not_not_intro h)]
    rfl
  · rw [if_neg h, if_pos h]
    rfl

theorem bookClose_runWith (hw : txn.getD d = w) (a : PersistArgs) (row : CloseCols)
    (k : Option CloseCols → Prog Ledger Reply) : (bookClose a row k).runWith txn d =
      if w.openTrade? a.tradeId = none then (k none).runWith (some w) d
      else (k (some row)).runWith
        (some (w.amend a.tradeId (a.update row) a.exitTime (a.event row))) d := by
  rw [bookClose, Prog.runWith_exec, hw]
  simp only [updateOpen_rowcount]
  split
  · next h => rw [updateOpen_of_none h]
  · rw [recordAdjustment_runWith (by intro text h; cases h)]
    rfl

theorem persistClose_runWith (hw : txn.getD d = w) (a : PersistArgs)
    (k : Option CloseCols → Prog Ledger Reply) : (persistClose a k).runWith txn d =
      match w.openTrade? a.tradeId with
      | none => (k none).runWith txn d
      | some r => (k (some r.closeCols)).runWith
          (some (w.amend a.tradeId (a.update r.closeCols) a.exitTime (a.event r.closeCols))) d := by
  rw [persistClose, Prog.runWith_select, hw]
  cases h : w.openTrade? a.tradeId with
  | none => rfl
  | some r =>
    simp only [Option.map_some]
    rw [bookClose_runWith hw, if_neg (by rw [h]; exact Option.some_ne_none r)]

theorem persistCloseAlone_run (a : PersistArgs) : (persistCloseAlone a).run d =
    match d.openTrade? a.tradeId with
    | none => (d, .bool false)
    | some r => (d.amend a.tradeId (a.update r.closeCols) a.exitTime (a.event r.closeCols),
        .bool true) := by
  rw [persistCloseAlone, Prog.run, persistClose_runWith rfl]
  rfl

theorem openPaperTrade_run (hd : d.Minted) (a : OpenArgs) (ha : a.standingDown = none) :
    (openPaperTrade a).run d =
      match d.idOfKey? a.uniqueKey with
      | some tid => (d, .id tid)
      | none => (d.spawn (a.row d.nextSjId) a.now (a.event d.nextSjId), .id d.nextSjId) := by
  rw [openPaperTrade]
  simp only [ha, Prog.run, Prog.runWith_beginImmediate, Prog.runWith_select, Option.getD_none,
    Option.getD_some]
  cases hk : d.idOfKey? a.uniqueKey with
  | some tid => rfl
  | none =>
    have hu : d.Unused (a.row d.nextSjId) := hd.unused rfl (by rintro k ⟨⟩; exact hk)
    simp only [Prog.runWith_select, Option.getD_some, Prog.runWith_exec,
      (insertTrade_of_fresh hu.id hu.key).1]
    rw [recordAdjustment_runWith (by intro text h; cases h)]
    rfl

/-- The two legs of a flip, on the row that was read. -/
theorem flipLegs_run (hd : d.Minted) (a : FlipArgs) (row : FlipCols) (ht : d.Has a.tradeId)
    {mid : Ledger} (hm : mid = d.amend a.tradeId (a.update row) a.flipTime (a.closeEvent row)) :
    (flipLegs a row).run d =
      (mid.spawn (a.childRow row mid.nextSjId) a.flipTime (a.openEvent row mid.nextSjId),
        .id mid.nextSjId) := by
  have hmid : mid.Minted := hm ▸ hd.amend ht
  have hu : mid.Unused (a.childRow row mid.nextSjId) := hmid.unused rfl (by rintro k ⟨⟩)
  rw [flipLegs, Prog.run, Prog.runWith_exec, recordAdjustment_runWith (by intro text h; cases h)]
  rw [Option.getD_none, Prog.runWith_select, Option.getD_some, ← amend, ← hm, Prog.runWith_exec,
    Option.getD_some, (insertTrade_of_fresh hu.id hu.key).1]
  simp only
  rw [recordAdjustment_runWith (by intro text h; cases h)]
  rfl

/-- A flip of an open trade to its other direction. -/
theorem applyFlip_run (hd : d.Minted) {a : FlipArgs} {r : TradeRow}
    (hr : d.openTrade? a.tradeId = some r) (hdir : ∀ text, a.newDirection ≠ .other text)
    (hne : r.direction ≠ a.newDirection) {mid : Ledger}
    (hm : mid = d.amend a.tradeId (a.update r.flipCols) a.flipTime (a.closeEvent r.flipCols)) :
    (applyFlip a).run d = (mid.spawn (a.childRow r.flipCols mid.nextSjId) a.flipTime
      (a.openEvent r.flipCols mid.nextSjId), .id mid.nextSjId) := by
  unfold applyFlip
  split
  · next h => exact absurd h (hdir _)
  · rw [Prog.run, Prog.runWith_select, Option.getD_none, hr]
    simp only [Option.map_some]
    rw [if_neg (show ¬ r.flipCols.direction = a.newDirection from hne), ← Prog.run]
    exact flipLegs_run hd a _ (has_of_openTrade? hr) hm

end runs

/-! ## Effects -/

theorem pyFloat_eq_ok {x : Option ℚ} {v : ℚ} (h : pyFloat x = .ok v) : x = some v := by
  cases x <;> cases h
  rfl

/-- A booking prices the open quantity against its running basis. -/
theorem perpCloseBooking_spec {env : Env} {a : PerpCloseArgs} {r : TradeRow} {times : List Time}
    {p : PersistArgs} {c : CloseComponents} (h : perpCloseBooking env a r times = .ok (p, c)) :
    ∃ entryDt basis qty size, (r.avgEntryPrice <|> r.entryPrice) = some basis ∧
      (r.currentQty <|> r.qty) = some qty ∧ (r.currentSizeUsdt <|> r.sizeUsdt) = some size ∧
      computePerpClose env r.direction basis p.exitPrice qty size r.asset entryDt p.exitTime
        a.costBpRt a.slippageBpRt a.applyFunding = .ok c ∧
      p = ⟨a.tradeId, p.exitPrice, p.exitTime, c.pnlUsdt, c.pnlPct, c.costUsdt⟩ := by
  unfold perpCloseBooking at h
  obtain ⟨entryDt, -, h⟩ := of_bind_ok h
  obtain ⟨-, -, h⟩ := of_bind_ok h
  obtain ⟨fill, -, h⟩ := of_bind_ok h
  obtain ⟨basis, hb, h⟩ := of_bind_ok h
  obtain ⟨qty, hq, h⟩ := of_bind_ok h
  obtain ⟨size, hs, h⟩ := of_bind_ok h
  obtain ⟨c', hc, h⟩ := of_bind_ok h
  cases h
  exact ⟨entryDt, basis, qty, size, pyFloat_eq_ok hb, pyFloat_eq_ok hq, pyFloat_eq_ok hs, hc, rfl⟩

theorem carryBooking_tradeId {env : Env} {a : CarryCloseArgs} {row : CarryCols} {p : PersistArgs}
    (h : carryBooking env a row = .ok p) : p.tradeId = a.tradeId := by
  unfold carryBooking at h
  obtain ⟨entryDt, -, h⟩ := of_bind_ok h
  obtain ⟨size, -, h⟩ := of_bind_ok h
  cases h
  rfl

/-- `c` finds its trade on the ledger `d` and has the close `p` to book for it. -/
inductive Call.Books (env : Env) (d : Ledger) : Call → PersistArgs → Prop
  | perp {a : PerpCloseArgs} {r : TradeRow} {p : PersistArgs} {c : CloseComponents} :
    d.openTrade? a.tradeId = some r →
    perpCloseBooking env a r ((d.eventsOf a.tradeId).map (·.eventTime)) = .ok (p, c) →
    Books env d (.closePerp a) p
  | carry {a : CarryCloseArgs} {r : TradeRow} {p : PersistArgs} : d.trade? a.tradeId = some r →
    carryBooking env a r.carryCols = .ok p → Books env d (.closeCarry a) p
  | persist {p : PersistArgs} : Books env d (.persistClose p) p

/-- The ledger that a call leaves when it runs by itself on `d` and changes it. -/
inductive Call.Effect (env : Env) (d : Ledger) : Call → Ledger → Prop
  | opened {a : OpenArgs} : d.idOfKey? a.uniqueKey = none →
    Effect env d (.openTrade a) (d.spawn (a.row d.nextSjId) a.now (a.event d.nextSjId))
  | scaled {a : ScaleArgs} {r : TradeRow} : d.openTrade? a.tradeId = some r →
    ¬ negligible (a.qtyDelta r.scaleCols) → d.recorded a.now (a.event r.scaleCols) ≠ [] →
    Effect env d (.scale a)
      (d.amend a.tradeId (a.update r.scaleCols) a.now (a.event r.scaleCols))
  | leveraged {a : LeverageArgs} {r : TradeRow} : d.openTrade? a.tradeId = some r →
    d.recorded a.now (a.event r.leverageCols) ≠ [] →
    Effect env d (.leverage a)
      (d.amend a.tradeId (a.update r.leverageCols) a.now (a.event r.leverageCols))
  | flipped {a : FlipArgs} {r : TradeRow} {mid : Ledger} : d.openTrade? a.tradeId = some r →
    (∀ text, a.newDirection ≠ .other text) → r.direction ≠ a.newDirection →
    mid = d.amend a.tradeId (a.update r.flipCols) a.flipTime (a.closeEvent r.flipCols) →
    Effect env d (.flip a)
      (mid.spawn (a.childRow r.flipCols mid.nextSjId) a.flipTime
        (a.openEvent r.flipCols mid.nextSjId))
  | closed {c : Call} {p : PersistArgs} {r : TradeRow} : c.Books env d p →
    d.openTrade? p.tradeId = some r →
    Effect env d c (d.amend p.tradeId (p.update r.closeCols) p.exitTime (p.event r.closeCols))

/-- On any ledger an open changes nothing, or inserts its row. -/
theorem openPaperTrade_run_cases (d : Ledger) (a : OpenArgs) : ((openPaperTrade a).run d).1 = d ∨
    (d.insertTrade (a.row d.nextSjId)).2 = .inserted ∧
      ((openPaperTrade a).run d).1 = d.spawn (a.row d.nextSjId) a.now (a.event d.nextSjId) := by
  rw [openPaperTrade]
  split
  · exact .inl rfl
  · simp only [Prog.run, Prog.runWith_beginImmediate, Prog.runWith_select, Option.getD_none,
      Option.getD_some]
    split
    · exact .inl rfl
    · simp only [Prog.runWith_select, Prog.runWith_exec, Option.getD_some]
      split
      · rw [Prog.runWith_select]
        split <;> exact .inl rfl
      · exact .inl rfl
      · next hinserted =>
        rw [recordAdjustment_runWith (by intro text h; cases h)]
        exact .inr ⟨hinserted, rfl⟩

/-- On any ledger a perp close changes nothing, or closes its trade. -/
theorem closePerpTrade_run_cases (env : Env) (d : Ledger) (a : PerpCloseArgs) :
    ((closePerpTrade env a).run d).1 = d ∨
      (Call.closePerp a).Effect env d ((closePerpTrade env a).run d).1 := by
  rw [closePerpTrade, Prog.run, Prog.runWith_beginImmediate, Prog.runWith_select, Option.getD_none,
    Option.getD_some]
  cases hr : d.openTrade? a.tradeId with
  | none => exact .inl rfl
  | some r =>
    simp only [Prog.runWith_select, Option.getD_some]
    split
    · exact .inl rfl
    · next p c hp =>
      have ht : d.openTrade? p.tradeId = some r := by
        obtain ⟨_, _, _, _, -, -, -, -, h⟩ := perpCloseBooking_spec hp
        rw [h]
        exact hr
      rw [persistClose_runWith rfl, Option.getD_some, ht]
      exact .inr (.closed (.perp hr hp) ht)

/-- A client that reads a row first does nothing without it. -/
theorem selectRow_run_cases {α : Type} {find : Ledger → Option TradeRow} {cols : TradeRow → α}
    {k : Option α → Prog Ledger Reply} {reply : Reply} {E : Ledger → Prop} {d : Ledger}
    (hnone : k none = .ret reply)
    (hsome : ∀ r, find d = some r →
      ((k (some (cols r))).run d).1 = d ∨ E ((k (some (cols r))).run d).1) :
    ((Prog.select (fun d => (find d).map cols) k).run d).1 = d ∨
      E ((Prog.select (fun d => (find d).map cols) k).run d).1 := by
  rw [Prog.run, Prog.runWith_select, Option.getD_none]
  cases hr : find d with
  | none =>
    rw [Option.map_none, hnone]
    exact .inl rfl
  | some r => exact hsome r hr

theorem ScaleArgs.event_known (a : ScaleArgs) (row : ScaleCols) (text : String) :
    (a.event row).eventType ≠ .other text := by
  dsimp only [ScaleArgs.event]
  split <;> exact fun h => nomatch h

/-- A flip changes nothing, or closes its trade and opens the other one. -/
theorem applyFlip_run_cases (env : Env) {d : Ledger} (hd : d.Minted) (a : FlipArgs) :
    ((applyFlip a).run d).1 = d ∨ (Call.flip a).Effect env d ((applyFlip a).run d).1 := by
  by_cases hdir : ∃ text, a.newDirection = .other text
  · obtain ⟨text, hdir⟩ := hdir
    rw [applyFlip, hdir]
    exact .inl rfl
  · have hdir : ∀ text, a.newDirection ≠ .other text := fun text h => hdir ⟨text, h⟩
    cases hr : d.openTrade? a.tradeId with
    | none =>
      refine .inl ?_
      unfold applyFlip
      split
      · rfl
      · rw [Prog.run, Prog.runWith_select, Option.getD_none, hr]
        rfl
    | some r =>
      by_cases hne : r.direction = a.newDirection
      · refine .inl ?_
        unfold applyFlip
        split
        · rfl
        · rw [Prog.run, Prog.runWith_select, Option.getD_none, hr]
          simp only [Option.map_some]
          rw [if_pos (show r.flipCols.direction = a.newDirection from hne)]
          rfl
      · rw [applyFlip_run hd hr hdir hne rfl]
        exact .inr (.flipped hr hdir hne rfl)

/-- A call that runs by itself changes nothing, or has one of the listed effects. -/
theorem Call.run_cases (env : Env) {d : Ledger} (hd : d.Minted) (c : Call) :
    (c.run env d).1 = d ∨ c.Effect env d (c.run env d).1 := by
  cases c with
  | openTrade a =>
    rw [Call.run, Call.prog]
    cases ha : a.standingDown with
    | some reason => rw [openPaperTrade, ha]; exact .inl rfl
    | none =>
      rw [openPaperTrade_run hd a ha]
      split
      · exact .inl rfl
      · next hk => exact .inr (.opened hk)
  | scale a =>
    refine selectRow_run_cases (E := (Call.scale a).Effect env d) rfl fun r hr => ?_
    dsimp only
    split
    · exact .inl rfl
    · next hn =>
      rw [resize_run (a.event_known _)]
      split
      · exact .inl rfl
      · next hrec => exact .inr (.scaled hr hn hrec)
  | leverage a =>
    refine selectRow_run_cases (E := (Call.leverage a).Effect env d) rfl fun r hr => ?_
    dsimp only
    split
    · exact .inl rfl
    · rw [resize_run (by intro text h; cases h)]
      split
      · exact .inl rfl
      · next hrec => exact .inr (.leveraged hr hrec)
  | flip a => exact applyFlip_run_cases env hd a
  | closePerp a => exact closePerpTrade_run_cases env d a
  | closeCarry a =>
    refine selectRow_run_cases (E := (Call.closeCarry a).Effect env d) rfl fun r hr => ?_
    dsimp only
    split
    · exact .inl rfl
    · next p hp =>
      rw [persistCloseAlone_run]
      split
      · exact .inl rfl
      · next r' hr' => exact .inr (.closed (.carry hr hp) hr')
  | persistClose p =>
    rw [Call.run, Call.prog, persistCloseAlone_run]
    split
    · exact .inl rfl
    · next r hr => exact .inr (.closed .persist hr)

end P300
