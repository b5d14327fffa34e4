import Mathlib.Algebra.BigOperators.Ring.List
import Mathlib.Tactic.Ring
import P300.Equity.Daily
import P300.Lib.Segments
import P300.Lib.Sorted

/-!
# Funding settlements

Two readers add up the funding of a trade: `_Position.value` over the notional segments of its
events, and `accrued_pct` of `strategies/support/funding.py`, with which a close is booked, over one
window. A settlement after the entry is charged once in both, on the notional in force just before
it.
-/

namespace P300

/-! ## `accrued_pct` -/

/-- The rates in force at the settlements of a table: `timestamp` is the key. -/
structure RatesAt (table : List (Int × Option ℚ)) (rate : Int → ℚ)
    (boundaries : List Int) : Prop where
  key : (table.map Prod.fst).Nodup
  row : ∀ ts ∈ boundaries, (ts, some (rate ts)) ∈ table

/-- The rates of the window `(startS, endS]`, in seconds; a rate of `NULL` is filtered. -/
def ratesIn (table : List (Int × Option ℚ)) (startS endS : Int) : List ℚ :=
  table.filterMap fun row =>
    if startS < row.1 ∧ row.1 ≤ endS ∧ row.1 % 28_800 = 0 then row.2 else none

namespace MarketData

variable (market : MarketData)

/-- `_TABLE_FOR_ASSET`; a table that is missing has no rows. -/
def fundingTable (asset : String) : Option (List (Int × Option ℚ)) :=
  if asset = "BTC" then some market.fundingRate
  else if asset = "ETH" then some market.fundingRateEth
  else none

/-- `funding.accrued_pct` -/
def accruedPct (asset : String) (startDt endDt : Time) (direction : Direction) : ℚ :=
  match market.fundingTable asset.toUpper with
  | none => 0
  | some table =>
    if endDt ≤ startDt then 0
    else
      let rows := ratesIn table (startDt.tdiv 1_000_000) (endDt.tdiv 1_000_000)
      if rows = [] then 0
      else
        let sign : ℚ := if direction = .long then -1 else 1
        sign * rows.sum * 100

end MarketData

/-! ## The notional in force -/

/-- The notional that an event leaves. -/
def EquityEvent.notional (ev : EquityEvent) : ℚ :=
  if ev.qtyAfter.getD 0 ≠ 0 then ev.sizeUsdtAfter.getD 0 else 0

/-- The notional just before `t`: what the last event before `t` left. -/
def notionalBefore (events : List EquityEvent) (t : Time) : ℚ :=
  ((events.filter fun ev => ev.dt < t).getLast?).elim 0 (·.notional)

/-- The settlements strictly between two instants, in seconds. -/
def boundaries (start stop : Time) : List Int :=
  let first := start / 28_800_000_000 + 1
  (List.range ((stop - 1) / 28_800_000_000 + 1 - first).toNat).map fun (i : Nat) =>
    (first + i) * 28_800

/-- The end of a segment's settlements, which is exclusive. -/
def segmentStop (cutoff : Time) (s : Segments.Segment Time ℚ) : Time :=
  s.next.elim cutoff (· + 1)

/-! ## Settlements of a window -/

section settlements

variable {start stop : Time} {ts : Int}

theorem mem_boundaries : ts ∈ boundaries start stop ↔
    ts % 28_800 = 0 ∧ start < ts * 1_000_000 ∧ ts * 1_000_000 < stop := by
  have arith : ∀ s e : Int, (∃ i : Nat, i < ((e - 1) / 28_800_000_000 + 1 -
      (s / 28_800_000_000 + 1)).toNat ∧ (s / 28_800_000_000 + 1 + (i : Int)) * 28_800 = ts) ↔
      ts % 28_800 = 0 ∧ s < ts * 1_000_000 ∧ ts * 1_000_000 < e := by
    intro s e
    constructor
    · rintro ⟨i, hi, rfl⟩
      omega
    · rintro ⟨hgrid, h1, h2⟩
      exact ⟨(ts / 28_800 - (s / 28_800_000_000 + 1)).toNat, by omega, by omega⟩
  rw [← arith, boundaries]
  simp only [List.mem_map, List.mem_range]

theorem boundaries_sorted : (boundaries start stop).Pairwise (· < ·) := by
  refine List.pairwise_map.mpr (List.pairwise_lt_range.imp fun {i j} (hij : i < j) => ?_)
  omega

theorem settlements_sorted : (settlements start stop).Pairwise (· < ·) := by
  refine List.pairwise_map.mpr (List.pairwise_lt_range.imp fun {i j} (hij : i < j) => ?_)
  omega

/-- From the epoch on, the loop of `_Market.funding` goes over the settlements between its
bounds. -/
theorem settlements_eq (h : 0 ≤ start) : settlements start stop = boundaries start stop :=
  Sorted.eq_of_mem_iff settlements_sorted boundaries_sorted fun _ =>
    (mem_settlements h).trans mem_boundaries.symm

end settlements

/-! ## The segments of a position -/

section segments

variable {tid : String} {cutoff : Time}

theorem Holding.book_segments {h h' : Holding} {ev : EquityEvent} {after fee : ℚ}
    (hb : h.book tid ev after fee = .ok h') : h'.segments = h.segments := by
  unfold Holding.book at hb
  split at hb
  · obtain ⟨price, _, hb⟩ := of_bind_ok hb
    split at hb <;> cases hb
    rfl
  · obtain ⟨price, _, hb⟩ := of_bind_ok hb
    split at hb <;> cases hb
    rfl
  · obtain ⟨delta, _, hb⟩ := of_bind_ok hb
    split at hb <;> cases hb
    rfl
  · obtain ⟨delta, _, hb⟩ := of_bind_ok hb
    split at hb <;> cases hb
    rfl
  · obtain ⟨delta, _, hb⟩ := of_bind_ok hb
    split at hb <;> cases hb
    rfl
  · split at hb <;> cases hb
    rfl
  · cases hb

theorem number_ok {value : Option ℚ} {label : String} {positive : Bool} {v : ℚ}
    (h : number value label positive = .ok v) : value = some v := by
  unfold number at h
  split at h
  · cases h
  · split at h
    · cases h
    · cases h
      rfl

/-- An event adds the segment of the notional that it leaves. -/
theorem Holding.apply_segments {h h' : Holding} {ev : EquityEvent} (ha : h.apply tid ev = .ok h') :
    h'.segments = h.segments ++ [(ev.dt, ev.notional)] := by
  obtain ⟨after, hafter, ha⟩ := of_bind_ok ha
  split at ha
  · cases ha
  · obtain ⟨fee, _, ha⟩ := of_bind_ok ha
    obtain ⟨h₁, hbook, ha⟩ := of_bind_ok ha
    rw [EquityEvent.notional, number_ok hafter, Option.getD_some, ← book_segments hbook]
    dsimp only at ha
    split at ha
    · next hne =>
      obtain ⟨notional, hnotional, ha⟩ := of_bind_ok ha
      cases ha
      rw [if_pos hne, number_ok hnotional, Option.getD_some]
    · next hzero =>
      cases ha
      rw [if_neg hzero]

/-- An advanced position has the segments of the events before the cutoff. -/
theorem Position.advanceOver_segments {evs : List EquityEvent} {p q : Position}
    (h : advanceOver cutoff evs p = .ok q) : q.trade = p.trade ∧
      q.segments = p.segments ++
        (evs.takeWhile fun ev => ev.dt < cutoff).map fun ev => (ev.dt, ev.notional) := by
  induction evs generalizing p with
  | nil =>
    cases h
    exact ⟨rfl, (List.append_nil _).symm⟩
  | cons ev evs ih =>
    rw [advanceOver] at h
    split at h
    · next hlt =>
      obtain ⟨h₁, happly, h⟩ := of_bind_ok h
      obtain ⟨htrade, hsegs⟩ := ih h
      refine ⟨htrade, ?_⟩
      rw [hsegs, List.takeWhile_cons_of_pos (by simpa using hlt), List.map_cons]
      dsimp only
      rw [Holding.apply_segments happly, List.append_assoc, List.singleton_append]
    · next hlt =>
      cases h
      rw [List.takeWhile_cons_of_neg (by simpa using hlt)]
      exact ⟨rfl, (List.append_nil _).symm⟩

/-- The notional of the segments in force is the one that the events have left. -/
theorem inForce_eq {evs : List EquityEvent} {x : Time} (hx : x ≤ cutoff) :
    (Segments.inForce ((evs.filter fun ev => ev.dt < cutoff).map fun ev =>
      (ev.dt, ev.notional)) x).elim 0
      id = notionalBefore evs x := by
  have hfilter : evs.filter (fun ev => ev.dt < x) =
      (evs.filter fun ev => ev.dt < cutoff).filter fun ev => ev.dt < x := by
    rw [List.filter_filter]
    refine List.filter_congr fun ev _ => ?_
    by_cases hlt : ev.dt < x
    · simp [hlt, hlt.trans_le hx]
    · simp [hlt]
  rw [Segments.inForce, List.filter_map, List.getLast?_map, notionalBefore, hfilter, Option.map_map]
  show (Option.map EquityEvent.notional (List.getLast? (List.filter (fun ev => decide (ev.dt < x))
    (List.filter _ evs)))).elim 0 id = _
  cases (List.filter (fun ev => decide (ev.dt < x)) (List.filter _ evs)).getLast? <;> rfl

end segments

/-! ## What the segments are charged -/

section charge

variable {market : MarketData} {asset : String} {table : List (Int × Option ℚ)} {rate : Int → ℚ}
  {cutoff : Time}

theorem find?_row {ts : Int} {v : Option ℚ} (hkey : (table.map Prod.fst).Nodup)
    (h : (ts, v) ∈ table) : table.find? (fun row => row.1 = ts) = some (ts, v) := by
  cases hf : table.find? fun row => row.1 = ts with
  | none => simpa using List.find?_eq_none.mp hf _ h
  | some row =>
    have hts : row.1 = ts := by simpa using List.find?_some hf
    rw [List.inj_on_of_nodup_map hkey (List.mem_of_find?_eq_some hf) h hts]

theorem foldlM_settle {notional sign : ℚ} {l : List Int} (h : RatesAt table rate l) (total : ℚ) :
    l.foldlM (MarketData.settle asset table notional sign) total =
      .ok (total + (l.map fun ts => sign * notional * rate ts).sum) := by
  obtain ⟨hkey, hrow⟩ := h
  induction l generalizing total with
  | nil => rw [List.map_nil, List.sum_nil, add_zero]; rfl
  | cons ts l ih =>
    have hsettle : MarketData.settle asset table notional sign total ts =
        .ok (total + sign * notional * rate ts) := by
      rw [MarketData.settle, find?_row hkey (hrow ts List.mem_cons_self)]
      rfl
    rw [List.foldlM_cons, hsettle, ok_bind,
      ih _ fun ts' h' => hrow ts' (List.mem_cons_of_mem ts h'),
      List.map_cons, List.sum_cons, add_assoc]

theorem MarketData.funding_ok (htable : market.fundingTable asset = some table) {start stop : Time}
    (h : RatesAt table rate (settlements start stop)) (notional sign : ℚ) :
    market.funding asset start stop notional sign =
      .ok ((settlements start stop).map fun ts => sign * notional * rate ts).sum := by
  have hfold : (settlements start stop).foldlM (settle asset table notional sign) 0 =
      .ok ((settlements start stop).map fun ts => sign * notional * rate ts).sum := by
    rw [foldlM_settle h, zero_add]
  unfold fundingTable at htable
  rw [funding]
  split at htable
  · next hbtc =>
    cases htable
    rw [if_pos hbtc]
    exact hfold
  · next hbtc =>
    split at htable
    · next heth =>
      cases htable
      rw [if_neg hbtc, if_pos heth]
      exact hfold
    · cases htable

/-- The funding over the segments is the sum of what each segment is charged. -/
theorem MarketData.fundingOver_ok (htable : market.fundingTable asset = some table) {sign : ℚ}
    {changes : List (Time × ℚ)} (h : ∀ s ∈ Segments.segments changes,
      RatesAt table rate (settlements s.start (segmentStop cutoff s))) (total : ℚ) :
    market.fundingOver asset sign cutoff total changes =
      .ok (total + ((Segments.segments changes).map fun s =>
        ((settlements s.start (segmentStop cutoff s)).map fun ts =>
          sign * s.value * rate ts).sum).sum) := by
  induction changes generalizing total with
  | nil => rw [fundingOver, Segments.segments, List.map_nil, List.sum_nil, add_zero]
  | cons c rest ih =>
    have hfirst := h _ List.mem_cons_self
    have hrest := ih fun s hs => h s (List.mem_cons_of_mem _ hs)
    rw [Segments.segments, List.map_cons, List.sum_cons, ← add_assoc]
    cases rest with
    | nil =>
      have hfund : market.funding asset c.1 cutoff c.2 sign = .ok _ :=
        funding_ok htable hfirst c.2 sign
      rw [fundingOver, hfund, ok_bind, Segments.segments, List.map_nil, List.sum_nil, add_zero]
      rfl
    | cons c' rest =>
      have hfund : market.funding asset c.1 (c'.1 + 1) c.2 sign = .ok _ :=
        funding_ok htable hfirst c.2 sign
      rw [fundingOver, hfund, ok_bind]
      exact hrest _

end charge

/-! ## `accrued_pct` over windows -/

section accrued

theorem ratesIn_eq_nil {table : List (Int × Option ℚ)} {a b : Int} (h : b ≤ a) :
    ratesIn table a b = [] := by
  refine List.filterMap_eq_nil_iff.mpr fun row _ => if_neg ?_
  omega

theorem sum_ratesIn {a b c : Int} (hab : a ≤ b) (hbc : b ≤ c) (table : List (Int × Option ℚ)) :
    (ratesIn table a c).sum = (ratesIn table a b).sum + (ratesIn table b c).sum := by
  induction table with
  | nil => exact (add_zero 0).symm
  | cons row table ih =>
    have hcons : ∀ x y : Int, (ratesIn (row :: table) x y).sum =
        (if x < row.1 ∧ row.1 ≤ y ∧ row.1 % 28_800 = 0 then row.2.getD 0 else 0) +
          (ratesIn table x y).sum := by
      intro x y
      rw [ratesIn, List.filterMap_cons, ← ratesIn]
      by_cases hin : x < row.1 ∧ row.1 ≤ y ∧ row.1 % 28_800 = 0
      · rw [if_pos hin, if_pos hin]
        cases row.2 with
        | none => exact (zero_add _).symm
        | some v => exact List.sum_cons
      · rw [if_neg hin, if_neg hin]
        exact (zero_add _).symm
    rw [hcons, hcons, hcons, ih]
    by_cases hin : a < row.1 ∧ row.1 ≤ c ∧ row.1 % 28_800 = 0
    · by_cases hb : row.1 ≤ b
      · rw [if_pos hin, if_pos ⟨hin.1, hb, hin.2.2⟩, if_neg (by omega)]
        ring
      · rw [if_pos hin, if_neg (by omega), if_pos ⟨not_le.mp hb, hin.2⟩]
        ring
    · rw [if_neg hin, if_neg (by omega), if_neg (by omega)]
      ring

theorem tdiv_mono {a b : Int} (h : a ≤ b) : a.tdiv 1_000_000 ≤ b.tdiv 1_000_000 := by
  rw [Int.tdiv_eq_ediv, Int.tdiv_eq_ediv, show Int.sign 1_000_000 = 1 from rfl]
  split <;> split <;> omega

/-- The sum over the window, also where the function returns early. -/
theorem MarketData.accruedPct_eq (market : MarketData) (asset : String) (startDt endDt : Time)
    (direction : Direction) : market.accruedPct asset startDt endDt direction =
      (market.fundingTable asset.toUpper).elim 0 fun table =>
        (if direction = .long then -1 else 1) *
          (ratesIn table (startDt.tdiv 1_000_000) (endDt.tdiv 1_000_000)).sum * 100 := by
  unfold accruedPct
  cases market.fundingTable asset.toUpper with
  | none => rfl
  | some table =>
    rw [Option.elim_some]
    dsimp only
    split
    · next hle => rw [ratesIn_eq_nil (tdiv_mono hle), List.sum_nil, mul_zero, zero_mul]
    · split
      · next hnil => rw [hnil, List.sum_nil, mul_zero, zero_mul]
      · rfl

/-- The funding of two adjacent windows is that of both together. -/
theorem MarketData.accruedPct_add (market : MarketData) (asset : String) (direction : Direction)
    {a b c : Time} (hab : a ≤ b) (hbc : b ≤ c) : market.accruedPct asset a c direction =
      market.accruedPct asset a b direction + market.accruedPct asset b c direction := by
  simp only [accruedPct_eq]
  cases market.fundingTable asset.toUpper with
  | none => exact (add_zero 0).symm
  | some table =>
    rw [Option.elim_some, Option.elim_some, Option.elim_some,
      sum_ratesIn (tdiv_mono hab) (tdiv_mono hbc)]
    ring

/-- The rates that a window sums are those of the settlements after its start and up to its end,
whatever the parts of a second of either are. -/
theorem perm_ratesIn {table : List (Int × Option ℚ)} {rate : Int → ℚ} {entry t : Time}
    (hentry : 0 ≤ entry) (ht : 0 ≤ t) (h : RatesAt table rate (boundaries entry (t + 1))) :
    (ratesIn table (entry.tdiv 1_000_000) (t.tdiv 1_000_000)).Perm
      ((boundaries entry (t + 1)).map rate) := by
  obtain ⟨hkey, hrow⟩ := h
  rw [Int.tdiv_eq_ediv_of_nonneg hentry, Int.tdiv_eq_ediv_of_nonneg ht]
  have hrates : ratesIn table (entry / 1_000_000) (t / 1_000_000) =
      ((table.map Prod.fst).filter fun ts => ts ∈ boundaries entry (t + 1)).map rate := by
    rw [List.filter_map, List.map_map]
    have hin : ∀ ts : Int, (entry / 1_000_000 < ts ∧ ts ≤ t / 1_000_000 ∧ ts % 28_800 = 0) ↔
        ts ∈ boundaries entry (t + 1) := by
      intro ts
      rw [mem_boundaries]
      have arith : ∀ e u : Int, (e / 1_000_000 < ts ∧ ts ≤ u / 1_000_000 ∧ ts % 28_800 = 0) ↔
          ts % 28_800 = 0 ∧ e < ts * 1_000_000 ∧ ts * 1_000_000 < u + 1 := by
        intro e u
        omega
      exact arith entry t
    have hrate : ∀ row ∈ table, row.1 ∈ boundaries entry (t + 1) → row.2 = some (rate row.1) := by
      intro row hmem hb
      have := List.inj_on_of_nodup_map hkey hmem (hrow _ hb) rfl
      exact congrArg Prod.snd this
    clear hkey hrow
    induction table with
    | nil => rfl
    | cons row table ih =>
      have hrest := ih fun row' h' => hrate row' (List.mem_cons_of_mem row h')
      rw [ratesIn, List.filterMap_cons, ← ratesIn, List.filter_cons]
      by_cases hb : row.1 ∈ boundaries entry (t + 1)
      · rw [if_pos ((hin row.1).mpr hb), hrate row List.mem_cons_self hb,
          if_pos (by simpa using hb), List.map_cons, hrest]
        rfl
      · rw [if_neg (mt (hin row.1).mp hb), if_neg (by simpa using hb), hrest]
  rw [hrates]
  refine List.Perm.map rate ((List.perm_ext_iff_of_nodup (hkey.filter _)
    (boundaries_sorted.imp ne_of_lt)).mpr fun ts => ?_)
  rw [List.mem_filter, decide_eq_true_iff]
  exact ⟨fun hts => hts.2, fun hts => ⟨List.mem_map_of_mem (hrow ts hts), hts⟩⟩

end accrued

/-! ## Each settlement once -/

/-- The funding of a position by an instant: each settlement since the entry at the notional in
force just before it. -/
def fundingDue (p : Position) (rate : Int → ℚ) (entry cutoff : Time) : ℚ :=
  ((boundaries entry cutoff).map fun ts => (if p.trade.direction = .long then -1 else 1) *
    notionalBefore p.events (ts * 1_000_000) * rate ts).sum

/-- The value of the position `p`, advanced to `q`, charges every settlement between entry and
cutoff in one segment, at the notional in force just before it; unresized, it charges what
`accrued_pct` adds up. -/
structure ChargedOnce (market : MarketData) (rate : Int → ℚ) (entry cutoff : Time)
    (p q : Position) :
    Prop where
  attributed : ∀ ts ∈ boundaries entry cutoff, ∃ pre s post,
    Segments.segments q.segments = pre ++ s :: post ∧
      ts ∈ settlements s.start (segmentStop cutoff s) ∧
      s.value = notionalBefore p.events (ts * 1_000_000) ∧
      ∀ s' ∈ pre ++ post, ts ∉ settlements s'.start (segmentStop cutoff s')
  value : p.value market cutoff = (market.mark p.trade.asset.toUpper cutoff).map fun price =>
    (q.realized - q.separateFees +
      (if p.trade.direction = .long then 1 else -1) * q.qty * (price - q.basis) +
      fundingDue p rate entry cutoff, q)
  unresized : ∀ t size, cutoff = t + 1 → q.segments = [(entry, size)] →
    fundingDue p rate entry cutoff =
      size * market.accruedPct p.trade.asset entry t p.trade.direction / 100

section position

variable {trade : TradeRow} {adjustments : List EquityEvent} {p q : Position} {entry cutoff : Time}

theorem inOrder_pairwise {tid : String} {previous : Time} {events : List EquityEvent}
    (h : inOrder tid previous events = .ok ()) : events.Pairwise fun a b => a.dt ≤ b.dt := by
  induction events generalizing previous with
  | nil => exact .nil
  | cons event rest ih =>
    rw [inOrder] at h
    split at h
    · cases h
    · exact List.pairwise_cons.mpr ⟨inOrder_ok h, ih h⟩

/-- The replay begins with the opening, at the entry. -/
theorem withOpen_head {opened : List EquityEvent}
    (h : withOpen trade entry adjustments = .ok opened)
    (hopen : ∀ a ∈ adjustments.head?, a.eventType = .open_ → a.dt = entry) :
    ∃ ev rest, opened = ev :: rest ∧ ev.dt = entry := by
  unfold withOpen at h
  split at h
  · next hhead =>
    cases h
    obtain ⟨ev, hev, hkind⟩ := Option.map_eq_some_iff.mp hhead
    obtain ⟨rest, rfl⟩ := List.head?_eq_some_iff.mp hev
    exact ⟨ev, rest, rfl, hopen ev hev hkind⟩
  · obtain ⟨qty, _, h⟩ := of_bind_ok h
    cases h
    exact ⟨_, _, rfl, rfl⟩

theorem withClose_head {opened events : List EquityEvent} {ev : EquityEvent}
    {rest : List EquityEvent} (h : withClose trade opened = .ok events)
    (hopened : opened = ev :: rest) :
    ∃ rest', events = ev :: rest' := by
  unfold withClose at h
  split at h
  · split at h
    · cases h
    · obtain ⟨pnl, _, h⟩ := of_bind_ok h
      cases h
      exact ⟨_, by rw [hopened]; rfl⟩
  · cases h
    exact ⟨rest, hopened⟩

/-- The events of a replay are in order from the entry on, where the first one opens the
position. -/
theorem position_events (h : position trade adjustments = .ok p)
    (hentry : trade.actualEntryTime = some entry)
    (hopen : ∀ a ∈ adjustments.head?, a.eventType = .open_ → a.dt = entry) :
    p.index = 0 ∧ p.events.Pairwise (fun a b => a.dt ≤ b.dt) ∧
      ∃ ev rest, p.events = ev :: rest ∧ ev.dt = entry := by
  unfold position at h
  rw [hentry] at h
  dsimp only at h
  split at h
  · cases h
  · obtain ⟨opened, hopened, h⟩ := of_bind_ok h
    obtain ⟨events, hevents, h⟩ := of_bind_ok h
    obtain ⟨⟨⟩, horder, h⟩ := of_bind_ok h
    cases h
    obtain ⟨ev, rest, hhead, hdt⟩ := withOpen_head hopened hopen
    obtain ⟨rest', hrest⟩ := withClose_head hevents hhead
    exact ⟨rfl, inOrder_pairwise horder, ev, rest', hrest, hdt⟩

end position

section charged

variable {market : MarketData} {trade : TradeRow} {adjustments : List EquityEvent} {p q : Position}
  {entry cutoff : Time} {table : List (Int × Option ℚ)} {rate : Int → ℚ}

/-- A segment that starts at the entry or later is charged the settlements that it has. -/
theorem segment_settlements {s : Segments.Segment Time ℚ} (hepoch : 0 ≤ entry)
    (hstart : entry ≤ s.start) (hnext : ∀ t ∈ s.next, t < cutoff) :
    settlements s.start (segmentStop cutoff s) =
      (boundaries entry cutoff).filter fun ts => s.Has (ts * 1_000_000) := by
  refine Sorted.eq_of_mem_iff settlements_sorted (boundaries_sorted.filter _) fun ts => ?_
  rw [mem_settlements (hepoch.trans hstart), List.mem_filter, mem_boundaries, decide_eq_true_iff,
    Segments.Segment.Has, segmentStop]
  cases hn : s.next with
  | none =>
    constructor
    · rintro ⟨hgrid, hlt, hstop⟩
      exact ⟨⟨hgrid, hstart.trans_lt hlt, hstop⟩, hlt, by simp⟩
    · rintro ⟨⟨hgrid, _, hstop⟩, hlt, _⟩
      exact ⟨hgrid, hlt, hstop⟩
  | some t =>
    have ht : t < cutoff := hnext t hn
    constructor
    · rintro ⟨hgrid, hlt, hstop⟩
      have hle : ts * 1_000_000 ≤ t := Int.le_of_lt_add_one hstop
      refine ⟨⟨hgrid, hstart.trans_lt hlt, hle.trans_lt ht⟩, hlt, ?_⟩
      rintro _ ⟨⟩
      exact hle
    · rintro ⟨⟨hgrid, _, _⟩, hlt, hle⟩
      exact ⟨hgrid, hlt, Int.lt_add_one_of_le (hle t rfl)⟩

/-- What the segments of a replay are, and that each settlement belongs to one of them. -/
structure Replayed (p q : Position) (entry cutoff : Time) : Prop where
  trade : q.trade = p.trade
  ordered : Segments.Ordered q.segments
  first : ∀ c ∈ q.segments.head?, c.1 = entry
  nonempty : entry < cutoff → q.segments ≠ []
  within : ∀ t ∈ q.segments.map Prod.fst, entry ≤ t ∧ t < cutoff
  inForce : ∀ x ≤ cutoff, (Segments.inForce q.segments x).elim 0 id = notionalBefore p.events x

theorem replayed (hp : position trade adjustments = .ok p)
    (hentry : trade.actualEntryTime = some entry)
    (hopen : ∀ a ∈ adjustments.head?, a.eventType = .open_ → a.dt = entry)
    (hadv : p.advance cutoff = .ok q) : Replayed p q entry cutoff := by
  obtain ⟨_, hzero, entry', hentry', hev⟩ := position_ok hp
  cases hentry.symm.trans hentry'
  obtain ⟨hindex, hsorted, ev, rest, hevents, hdt⟩ := position_events hp hentry hopen
  rw [Position.advance, hindex, List.drop_zero] at hadv
  obtain ⟨htrade, hsegs⟩ := Position.advanceOver_segments hadv
  have hfront : p.events.Pairwise fun a b => decide (b.dt < cutoff) → decide (a.dt < cutoff) :=
    hsorted.imp fun hab hb => decide_eq_true (hab.trans_lt (of_decide_eq_true hb))
  rw [hzero, Sorted.takeWhile_eq_filter hfront] at hsegs
  replace hsegs : q.segments =
      (p.events.filter fun ev => ev.dt < cutoff).map fun ev => (ev.dt, ev.notional) := hsegs
  refine ⟨htrade, ?_, ?_, fun hlt => ?_, ?_, fun x hx => by rw [hsegs, inForce_eq hx]⟩
  · rw [hsegs]
    exact List.pairwise_map.mpr (hsorted.filter _)
  · intro c hc
    rw [hsegs, hevents] at hc
    by_cases hlt : ev.dt < cutoff
    · rw [List.filter_cons_of_pos (by simpa using hlt)] at hc
      cases hc
      exact hdt
    · -- nothing is before the cutoff if the opening is not
      have hnone : (ev :: rest).filter (fun ev => ev.dt < cutoff) = [] := by
        refine List.filter_eq_nil_iff.mpr fun ev' hev' => ?_
        have hle : entry ≤ ev'.dt := hev ev' (hevents ▸ hev')
        simpa using (not_lt.mp hlt).trans (hdt.le.trans hle)
      rw [hnone] at hc
      cases hc
  · rw [hsegs, hevents, List.filter_cons_of_pos (by simpa [hdt] using hlt)]
    exact List.cons_ne_nil _ _
  · intro t ht
    rw [hsegs, List.map_map] at ht
    obtain ⟨ev', hev', rfl⟩ := List.mem_map.mp ht
    obtain ⟨hmem, hlt⟩ := List.mem_filter.mp hev'
    exact ⟨hev ev' hmem, by simpa using hlt⟩

theorem Replayed.settlements_eq (h : Replayed p q entry cutoff) (hepoch : 0 ≤ entry) :
    ∀ s ∈ Segments.segments q.segments, settlements s.start (segmentStop cutoff s) =
      (boundaries entry cutoff).filter fun ts => s.Has (ts * 1_000_000) := by
  intro s hs
  obtain ⟨hstart, hnext⟩ := Segments.mem_segments hs
  exact segment_settlements hepoch (h.within _ hstart).1 fun t ht => (h.within _ (hnext t ht)).2

/-- Every settlement between entry and cutoff is in one segment. -/
theorem Replayed.attributed (h : Replayed p q entry cutoff) (hepoch : 0 ≤ entry) {ts : Int}
    (hts : ts ∈ boundaries entry cutoff) : ∃ pre s post,
      Segments.segments q.segments = pre ++ s :: post ∧
        ts ∈ settlements s.start (segmentStop cutoff s) ∧
        s.value = notionalBefore p.events (ts * 1_000_000) ∧
        ∀ s' ∈ pre ++ post, ts ∉ settlements s'.start (segmentStop cutoff s') := by
  obtain ⟨_, hafter, hbefore⟩ := mem_boundaries.mp hts
  obtain ⟨pre, s, post, heq, hs, hforce, hothers⟩ := Segments.has_once h.ordered
    (h.nonempty (hafter.trans hbefore)) fun c hc => (h.first c hc).trans_lt hafter
  have hmem : ∀ s' ∈ pre ++ s :: post, s' ∈ Segments.segments q.segments := fun s' hs' => heq ▸ hs'
  refine ⟨pre, s, post, heq, ?_, ?_, fun s' hs' => ?_⟩
  · rw [h.settlements_eq hepoch s (hmem s (by simp))]
    exact List.mem_filter.mpr ⟨hts, decide_eq_true hs⟩
  · rw [← h.inForce _ hbefore.le, hforce]
    rfl
  · rw [h.settlements_eq hepoch s' (hmem s' (by
      rcases List.mem_append.mp hs' with hs' | hs'
      · exact List.mem_append_left _ hs'
      · exact List.mem_append_right _ (List.mem_cons_of_mem s hs')))]
    exact fun hin => hothers s' hs' (of_decide_eq_true (List.mem_filter.mp hin).2)

/-- The funding over the segments of a replay. -/
theorem Replayed.fundingOver (h : Replayed p q entry cutoff) (hepoch : 0 ≤ entry)
    (htable : market.fundingTable p.trade.asset.toUpper = some table)
    (hrates : RatesAt table rate (boundaries entry cutoff)) (total : ℚ) :
    market.fundingOver p.trade.asset.toUpper (-(if p.trade.direction = .long then 1 else -1)) cutoff
      total q.segments = .ok (total + fundingDue p rate entry cutoff) := by
  have hsub : ∀ s ∈ Segments.segments q.segments,
      RatesAt table rate (settlements s.start (segmentStop cutoff s)) := by
    intro s hs
    rw [h.settlements_eq hepoch s hs]
    exact ⟨hrates.key, fun ts hts => hrates.row ts (List.mem_filter.mp hts).1⟩
  rw [MarketData.fundingOver_ok htable hsub]
  congr 2
  rw [List.map_congr_left fun s hs => by rw [h.settlements_eq hepoch s hs]]
  by_cases hlt : entry < cutoff
  · rw [Segments.sum_segments h.ordered (h.nonempty hlt) (fun ts : Int => ts * 1_000_000)
      (fun v ts => -(if p.trade.direction = .long then 1 else -1) * v * rate ts) _
      fun ts hts c hc => (h.first c hc).trans_lt (mem_boundaries.mp hts).2.1, fundingDue]
    congr 1
    refine List.map_congr_left fun ts hts => ?_
    rw [← h.inForce _ (mem_boundaries.mp hts).2.2.le]
    cases Segments.inForce q.segments (ts * 1_000_000) with
    | none => simp
    | some v => split <;> simp
  · have hnil : q.segments = [] := by
      by_contra hne
      obtain ⟨c, rest, hc⟩ := List.exists_cons_of_ne_nil hne
      obtain ⟨h1, h2⟩ := h.within c.1 (by simp [hc])
      exact hlt (h1.trans_lt h2)
    have hempty : boundaries entry cutoff = [] := List.eq_nil_iff_forall_not_mem.mpr fun ts hts =>
      hlt ((mem_boundaries.mp hts).2.1.trans (mem_boundaries.mp hts).2.2)
    rw [hnil, fundingDue, hempty]
    rfl

/-- Unresized, the funding is the size times what `accrued_pct` adds up. -/
theorem Replayed.unresized (h : Replayed p q entry cutoff) (hepoch : 0 ≤ entry)
    (htable : market.fundingTable p.trade.asset.toUpper = some table)
    (hrates : RatesAt table rate (boundaries entry cutoff)) {t : Time} {size : ℚ}
    (hcutoff : cutoff = t + 1) (hsegs : q.segments = [(entry, size)]) :
    fundingDue p rate entry cutoff =
      size * market.accruedPct p.trade.asset entry t p.trade.direction / 100 := by
  subst hcutoff
  have hle : entry ≤ t := Int.le_of_lt_add_one (h.within entry (by simp [hsegs])).2
  have hnotional : ∀ ts ∈ boundaries entry (t + 1),
      notionalBefore p.events (ts * 1_000_000) = size := by
    intro ts hts
    obtain ⟨_, hafter, hbefore⟩ := mem_boundaries.mp hts
    rw [← h.inForce _ hbefore.le, hsegs, Segments.inForce_cons_of_le hafter (by simp)]
    rfl
  rw [MarketData.accruedPct_eq, htable, Option.elim_some,
    (perm_ratesIn hepoch (hepoch.trans hle) hrates).sum_eq, fundingDue,
    List.map_congr_left fun ts hts => by rw [hnotional ts hts], List.sum_map_mul_left]
  ring

/-- A position that is charged funding and holds a quantity at the cutoff is charged every
settlement since its entry once, on the notional in force just before it; and the windows of
`accrued_pct` add up. -/
theorem funding_charged_once (hp : position trade adjustments = .ok p)
    (hentry : trade.actualEntryTime = some entry) (hepoch : 0 ≤ entry)
    (hopen : ∀ a ∈ adjustments.head?, a.eventType = .open_ → a.dt = entry)
    (hcarry : trade.strategy.toUpper ≠ "CARRY") (hcharged : trade.strategy.toUpper ∉ noFunding)
    (htable : market.fundingTable trade.asset.toUpper = some table)
    (hrates : RatesAt table rate (boundaries entry cutoff)) (hadv : p.advance cutoff = .ok q)
    (hqty : q.qty ≠ 0) :
    ChargedOnce market rate entry cutoff p q ∧ ∀ asset direction a b c, a ≤ b → b ≤ c →
      market.accruedPct asset a c direction =
        market.accruedPct asset a b direction + market.accruedPct asset b c direction := by
  obtain ⟨rfl, _⟩ := position_ok hp
  have h : Replayed p q entry cutoff := replayed hp hentry hopen hadv
  refine ⟨⟨fun ts hts => h.attributed hepoch hts, ?_, fun t size hcutoff hsegs =>
    h.unresized hepoch htable hrates hcutoff hsegs⟩, fun asset direction a b c hab hbc =>
    market.accruedPct_add asset direction hab hbc⟩
  have hworth : q.worth market cutoff = (market.mark p.trade.asset.toUpper cutoff).map fun price =>
      q.realized - q.separateFees +
        (if p.trade.direction = .long then 1 else -1) * q.qty * (price - q.basis) +
        fundingDue p rate entry cutoff := by
    unfold Position.worth
    rw [if_neg hqty, h.trade]
    simp only [if_pos hcarry, if_neg hcarry, if_pos hcharged]
    cases market.mark p.trade.asset.toUpper cutoff with
    | error e => rfl
    | ok price => exact h.fundingOver hepoch htable hrates _
  rw [Position.value, hadv, ok_bind, hworth]
  cases market.mark p.trade.asset.toUpper cutoff <;> rfl

end charged

/-! ## Positions that are not charged -/

/-- An open trade other than CARRY that is replayed up to the cutoff, with a row for every
settlement. -/
structure OpenReplay (market : MarketData) (trade : TradeRow) (adjustments : List EquityEvent)
    (rate : Int → ℚ) (entry cutoff : Time) (p q : Position) : Prop where
  replay : position trade adjustments = .ok p
  entryTime : trade.actualEntryTime = some entry
  status : trade.status = .open_
  opening : ∀ a ∈ adjustments.head?, a.eventType = .open_ → a.dt = entry
  notCarry : trade.strategy.toUpper ≠ "CARRY"
  rates : ∃ table, market.fundingTable trade.asset.toUpper = some table ∧
    RatesAt table rate (boundaries entry cutoff)
  advance : p.advance cutoff = .ok q

/-- Two settlements, and the minutes before them and before a later hour. -/
def twoSettlements : MarketData where
  simulated := true
  btc1m := {
    rows := [⟨-60_000, none, none, none, some 100⟩, ⟨28_740_000, none, none, none, some 100⟩,
      ⟨35_940_000, none, none, none, some 100⟩]
    sorted := by decide }
  eth1m := .empty
  fundingRate := [(0, some (1 / 1000)), (28_800, some (1 / 1000))]
  fundingRateEth := []

/-- The event of a quantity `qty` at `price`. -/
def fillEvent (kind : EventType) (dt : Time) (qty price : ℚ) : EquityEvent where
  eventType := kind
  dt := dt
  qtyAfter := some qty
  price := some price
  feeUsdt := some 0
  sizeUsdtAfter := some (qty * price)
  realizedPnlDeltaUsdt := some 0

/-- A replay of one unit of BTC that was opened at `entry`. -/
def oneUnit (strategy : String) (entry : Time) (later : List EquityEvent) : Position where
  trade := longTrade "T" strategy .open_ entry none 1 100 none
  events := fillEvent .open_ entry 1 100 :: later

theorem ok_of_toOption {ε α : Type} {x : Except ε α} {a : α} (h : x.toOption = some a) :
    x = .ok a := by
  cases x with
  | error e => cases h
  | ok b => exact congrArg _ (Option.some.inj h)

/-- The rate of the two settlements. -/
def flatRate (_ : Int) : ℚ := 1 / 1000

theorem ratesAt_twoSettlements {ts : Int} (h : ts = 0 ∨ ts = 28_800) :
    RatesAt twoSettlements.fundingRate flatRate [ts] where
  key := by decide
  row ts' hts' := by
    cases List.mem_singleton.mp hts'
    rcases h with rfl | rfl
    · exact List.mem_cons_self
    · exact List.mem_cons_of_mem _ List.mem_cons_self

/-- A sleeve without funding, a position that was sold out, and an entry before the epoch. -/
theorem uncharged_positions :
    (∃ p q, OpenReplay twoSettlements (oneUnit "PDO_RETOUCH" 3_600_000_000 []).trade
        (oneUnit "PDO_RETOUCH" 3_600_000_000 []).events flatRate 3_600_000_000 28_800_000_001 p q ∧
      ¬ ChargedOnce twoSettlements flatRate 3_600_000_000 28_800_000_001 p q) ∧
    (∃ p q, OpenReplay twoSettlements (oneUnit "ADX" 3_600_000_000 []).trade
        (oneUnit "ADX" 3_600_000_000 [fillEvent .scaleDown 32_400_000_000 0 100]).events flatRate
        3_600_000_000 36_000_000_000 p q ∧
      ¬ ChargedOnce twoSettlements flatRate 3_600_000_000 36_000_000_000 p q) ∧
    ∃ p q, OpenReplay twoSettlements (oneUnit "ADX" (-500_000) []).trade
        (oneUnit "ADX" (-500_000) []).events flatRate (-500_000) 1 p q ∧
      ¬ ChargedOnce twoSettlements flatRate (-500_000) 1 p q := by
  refine ⟨⟨oneUnit "PDO_RETOUCH" 3_600_000_000 [],
    { oneUnit "PDO_RETOUCH" 3_600_000_000 [] with
      qty := 1, basis := 100, segments := [(3_600_000_000, 100)], index := 1 }, ?_, fun h => ?_⟩,
    ⟨oneUnit "ADX" 3_600_000_000 [fillEvent .scaleDown 32_400_000_000 0 100],
    { oneUnit "ADX" 3_600_000_000 [fillEvent .scaleDown 32_400_000_000 0 100] with
      qty := 0, basis := 100, segments := [(3_600_000_000, 100), (32_400_000_000, 0)], index := 2 },
      ?_, fun h => ?_⟩,
    ⟨oneUnit "ADX" (-500_000) [],
    { oneUnit "ADX" (-500_000) [] with
      qty := 1, basis := 100, segments := [(-500_000, 100)], index := 1 }, ?_, fun h => ?_⟩⟩
  · exact ⟨ok_of_toOption (by decide +kernel), rfl, rfl, fun a ha _ => by cases ha; rfl,
      by decide +kernel, ⟨twoSettlements.fundingRate, by decide +kernel,
        ratesAt_twoSettlements (.inr rfl)⟩,
      ok_of_toOption (by decide +kernel)⟩
  · have hv := congrArg (fun r => r.toOption.map Prod.fst) h.value
    revert hv
    decide +kernel
  · exact ⟨ok_of_toOption (by decide +kernel), rfl, rfl, fun a ha _ => by cases ha; rfl,
      by decide +kernel, ⟨twoSettlements.fundingRate, by decide +kernel,
        ratesAt_twoSettlements (.inr rfl)⟩,
      ok_of_toOption (by decide +kernel)⟩
  · have hv := congrArg (fun r => r.toOption.map Prod.fst) h.value
    revert hv
    decide +kernel
  · exact ⟨ok_of_toOption (by decide +kernel), rfl, rfl, fun a ha _ => by cases ha; rfl,
      by decide +kernel, ⟨twoSettlements.fundingRate, by decide +kernel,
        ratesAt_twoSettlements (.inl rfl)⟩,
      ok_of_toOption (by decide +kernel)⟩
  · have hv := congrArg (fun r => r.toOption.map Prod.fst) h.value
    revert hv
    decide +kernel

theorem funding_charged_once_oneUnit :
    ChargedOnce twoSettlements flatRate 3_600_000_000 28_800_000_001
      (oneUnit "ADX" 3_600_000_000 [])
        { oneUnit "ADX" 3_600_000_000 [] with
          qty := 1, basis := 100, segments := [(3_600_000_000, 100)], index := 1 } ∧
      ∀ asset direction a b c, a ≤ b → b ≤ c → twoSettlements.accruedPct asset a c direction =
        twoSettlements.accruedPct asset a b direction +
          twoSettlements.accruedPct asset b c direction := by
  have hp : position (oneUnit "ADX" 3_600_000_000 []).trade
      (oneUnit "ADX" 3_600_000_000 []).events =
      .ok (oneUnit "ADX" 3_600_000_000 []) := ok_of_toOption (by decide +kernel)
  exact funding_charged_once hp rfl (by decide) (fun a ha _ => by cases ha; rfl) (by decide +kernel)
    (by decide +kernel) (show _ = some twoSettlements.fundingRate by decide +kernel)
    (ratesAt_twoSettlements (.inr rfl)) (ok_of_toOption (by decide +kernel)) (by decide +kernel)

end P300
