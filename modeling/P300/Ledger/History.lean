import P300.Ledger.Effects
import Mathlib.Algebra.BigOperators.Group.List.Basic

/-!
# The history of a trade

The invariant of the ledger under lifecycle calls that run one at a time (`Ledger.Consistent`): the
events of every trade are numbered without a gap, begin with its only `OPEN`, add up to its realised
P&L, and end with its only `CLOSE` or `FLIP` exactly when it is no longer open; a trade has no more
children than `FLIP` events. The run lemma is `Ledger.consistent_runAll`.
-/

namespace P300

open TxnStore

namespace Ledger

variable {d : Ledger} {tid : String} {u : TradeUpdate} {now : Time} {e : RecordArgs}
  {row r : TradeRow}

/-- The realised P&L that events book together. -/
def deltas (es : List Adjustment) : ℚ := (es.map fun b => b.realizedPnlDeltaUsdt.getD 0).sum

def flips (es : List Adjustment) : Nat := es.countP fun b => b.eventType = .flip

/-- The trades that a flip of `tid` opened. -/
def childrenOf (tid : String) (d : Ledger) : List TradeEntry :=
  d.entries.filter fun x => x.parentPositionId = some tid

/-- The events of `r` agree with its row. -/
structure Told (d : Ledger) (r : TradeRow) : Prop where
  seqs : (d.eventsOf r.id).map (·.seq) = List.range (d.eventsOf r.id).length
  opened : ∃ b es, d.eventsOf r.id = b :: es ∧ b.eventType = .open_ ∧
    ∀ c ∈ es, c.eventType ≠ .open_
  realized : r.realizedPnlUsdt = some (deltas (d.eventsOf r.id))
  live : r.status = .open_ → ∀ b ∈ d.eventsOf r.id, ¬ b.eventType.Terminal
  ended : r.status ≠ .open_ → r.pnlUsdt = r.realizedPnlUsdt ∧
    ∃ es b, d.eventsOf r.id = es ++ [b] ∧ b.eventType.Terminal ∧
      ∀ c ∈ es, ¬ c.eventType.Terminal
  children : (d.childrenOf r.id).length ≤ flips (d.eventsOf r.id)

structure Consistent (d : Ledger) : Prop where
  minted : d.Minted
  told : ∀ r ∈ d.trades, d.Told r

/-- The event `e` records what the update `u` does to the row `r`. -/
structure Matches (e : RecordArgs) (u : TradeUpdate) (r : TradeRow) : Prop where
  notOpen : e.eventType ≠ .open_
  realized : ∀ v, r.realizedPnlUsdt = some v →
    (u r.toTradeState).realizedPnlUsdt = some (v + e.realizedPnlDeltaUsdt)
  live : ¬ e.eventType.Terminal → (u r.toTradeState).status = r.status
  ended : e.eventType.Terminal → (u r.toTradeState).status = .closed ∧
    (u r.toTradeState).pnlUsdt = (u r.toTradeState).realizedPnlUsdt

theorem Consistent.empty : Consistent empty := ⟨.empty, fun _ h => nomatch h⟩

@[simp] theorem deltas_append (es es' : List Adjustment) :
    deltas (es ++ es') = deltas es + deltas es' := by
  simp [deltas]

@[simp] theorem deltas_row (seq : Nat) :
    deltas [e.row now seq] = e.realizedPnlDeltaUsdt := by
  simp [deltas, RecordArgs.row]

theorem flips_eq_zero {es : List Adjustment} (h : ∀ b ∈ es, ¬ b.eventType.Terminal) :
    flips es = 0 := by
  refine List.countP_eq_zero.mpr fun b hb hc => h b hb ?_
  exact .inr (of_decide_eq_true hc)

/-- An open trade has no children. -/
theorem Told.no_children (h : d.Told r) (ho : r.status = .open_) : d.childrenOf r.id = [] := by
  have := h.children
  rw [flips_eq_zero (h.live ho)] at this
  exact List.length_eq_zero_iff.mp (Nat.le_zero.mp this)

/-- At most one event of a trade is terminal, so it was flipped at most once. -/
theorem Told.flips_le_one (h : d.Told r) : flips (d.eventsOf r.id) ≤ 1 := by
  by_cases ho : r.status = .open_
  · rw [flips_eq_zero (h.live ho)]
    exact Nat.zero_le 1
  · obtain ⟨-, es, b, he, -, hes⟩ := h.ended ho
    rw [he, flips, List.countP_append, ← flips, flips_eq_zero hes, Nat.zero_add]
    exact List.countP_le_length

/-- Nothing is recorded after a terminal event. -/
theorem Told.last_of_terminal (h : d.Told r) {pre post : List Adjustment} {b : Adjustment}
    (he : d.eventsOf r.id = pre ++ b :: post) (hb : b.eventType.Terminal) : post = [] := by
  have hno : r.status ≠ .open_ := fun ho => h.live ho b (by rw [he]; simp) hb
  obtain ⟨-, es, last, he', -, hes⟩ := h.ended hno
  rcases List.eq_nil_or_concat post with hp | ⟨post', c, hp⟩
  · exact hp
  · rw [he, hp, List.concat_eq_append, ← List.cons_append, ← List.append_assoc] at he'
    obtain ⟨hpre, -⟩ := List.append_inj' he' rfl
    exact absurd hb (hes b (by rw [← hpre]; simp))

theorem seqs_append {es : List Adjustment} {b : Adjustment}
    (h : es.map (·.seq) = List.range es.length) (hb : b.seq = es.length) :
    (es ++ [b]).map (·.seq) = List.range (es ++ [b]).length := by
  rw [List.map_append, h, List.length_append, List.length_singleton, List.range_succ,
    List.map_singleton, hb]

theorem opened_append {es : List Adjustment} {b : Adjustment}
    (h : ∃ c cs, es = c :: cs ∧ c.eventType = .open_ ∧ ∀ x ∈ cs, x.eventType ≠ .open_)
    (hb : b.eventType ≠ .open_) :
    ∃ c cs, es ++ [b] = c :: cs ∧ c.eventType = .open_ ∧ ∀ x ∈ cs, x.eventType ≠ .open_ := by
  obtain ⟨c, cs, rfl, hc, hcs⟩ := h
  refine ⟨c, cs ++ [b], rfl, hc, fun x hx => ?_⟩
  rcases List.mem_append.mp hx with hx | hx
  · exact hcs x hx
  · rw [List.mem_singleton.mp hx]
    exact hb

/-- The events in the order of their numbers are those in the order of their insertion. -/
theorem Told.getAdjustments_eq (h : d.Told r) : d.getAdjustments r.id = d.eventsOf r.id := by
  refine List.Pairwise.insertionSort_eq ?_
  have hp : ((d.eventsOf r.id).map (·.seq)).Pairwise (· ≤ ·) := by
    rw [h.seqs]
    exact List.pairwise_le_range
  exact List.pairwise_map.mp hp

/-- A trade whose row, events and children did not change. -/
theorem Told.congr {d' : Ledger} (h : d.Told r) (he : d'.eventsOf r.id = d.eventsOf r.id)
    (hc : d'.childrenOf r.id = d.childrenOf r.id) : d'.Told r where
  seqs := by rw [he]; exact h.seqs
  opened := by rw [he]; exact h.opened
  realized := by rw [he]; exact h.realized
  live := by rw [he]; exact h.live
  ended := by rw [he]; exact h.ended
  children := by rw [he, hc]; exact h.children

/-- The updated row after its event. -/
theorem Told.set {d' : Ledger} (h : d.Told r) (ho : r.status = .open_) {b : Adjustment}
    (hb : b = e.row now (d.nextSeq r.id)) (hm : Matches e u r)
    (he : d'.eventsOf r.id = d.eventsOf r.id ++ [b])
    (hc : d'.childrenOf r.id = d.childrenOf r.id) : d'.Told (r.set u) where
  seqs := by
    have hid : (r.set u).id = r.id := rfl
    rw [hid, he]
    refine seqs_append h.seqs ?_
    rw [hb]
    exact nextSeq_of_range h.seqs
  opened := by
    have hid : (r.set u).id = r.id := rfl
    rw [hid, he]
    exact opened_append h.opened (by rw [hb]; exact hm.notOpen)
  realized := by
    have hid : (r.set u).id = r.id := rfl
    rw [hid, he, deltas_append, hb, deltas_row]
    exact hm.realized _ h.realized
  live hst := by
    have hid : (r.set u).id = r.id := rfl
    have ht : ¬ e.eventType.Terminal := fun ht => by
      rw [show (r.set u).status = .closed from (hm.ended ht).1] at hst
      cases hst
    rw [hid, he, hb]
    intro c hc
    rcases List.mem_append.mp hc with hc | hc
    · exact h.live ho c hc
    · rw [List.mem_singleton.mp hc]
      exact ht
  ended hst := by
    have hid : (r.set u).id = r.id := rfl
    have ht : e.eventType.Terminal := by
      by_contra ht
      exact hst ((hm.live ht).trans ho)
    refine ⟨(hm.ended ht).2, d.eventsOf r.id, b, by rw [hid, he], ?_, h.live ho⟩
    rw [hb]
    exact ht
  children := by
    have hid : (r.set u).id = r.id := rfl
    rw [hid, he, hc, h.no_children ho]
    exact Nat.zero_le _

theorem eventsOf_amend_self (hr : d.openTrade? tid = some r)
    (he : e.tradeId = tid) (hrec : d.recorded now e ≠ []) :
    (d.amend tid u now e).eventsOf r.id = d.eventsOf r.id ++ [e.row now (d.nextSeq r.id)] := by
  obtain ⟨hm, hid, -⟩ := openTrade?_eq_some hr
  rw [eventsOf_amend, if_pos (he.trans hid.symm)]
  unfold recorded at hrec ⊢
  split
  · rw [he, hid]
  · next hc => rw [if_neg hc] at hrec; exact absurd rfl hrec

/-- An update of an open row with a matching event. -/
theorem Consistent.amend (h : d.Consistent) (hr : d.openTrade? tid = some r)
    (he : e.tradeId = tid) (hrec : d.recorded now e ≠ []) (hm : Matches e u r) :
    (d.amend tid u now e).Consistent where
  minted := h.minted.amend (he ▸ has_of_openTrade? hr)
  told r' hr' := by
    have hch : ∀ t, (d.amend tid u now e).childrenOf t = d.childrenOf t := fun t => by
      rw [childrenOf, amend_entries, childrenOf]
    obtain ⟨hmem, hid, ho⟩ := openTrade?_eq_some hr
    rcases mem_amend hr hr' with rfl | ⟨hmem', hne⟩
    · exact (h.told r hmem).set ho rfl hm (eventsOf_amend_self hr he hrec) (hch _)
    · refine (h.told r' hmem').congr ?_ (hch _)
      rw [eventsOf_amend, if_neg (fun h' => hne (h'.symm.trans he)), List.append_nil]

theorem Unused.childrenOf_spawn (hu : d.Unused row) (t : String) :
    (d.spawn row now e).childrenOf t =
      d.childrenOf t ++ if row.parentPositionId = some t then [row.toTradeEntry] else [] := by
  rw [childrenOf, hu.spawn_entries, List.filter_append, childrenOf, List.filter_cons,
    List.filter_nil]
  simp only [decide_eq_true_eq]

/-- A new row with its `OPEN` event, under a parent that still has a flip without a child. -/
theorem Consistent.spawn (h : d.Consistent) (hu : d.Unused row) (hid : row.id = d.nextSjId)
    (hs : row.series = "SJ") (he : e.tradeId = row.id) (het : e.eventType = .open_)
    (hst : row.status = .open_) (hreal : row.realizedPnlUsdt = some e.realizedPnlDeltaUsdt)
    (hp : ∀ p, row.parentPositionId = some p →
      d.Has p ∧ (d.childrenOf p).length < flips (d.eventsOf p)) :
    (d.spawn row now e).Consistent where
  minted := h.minted.spawn hu hid hs (fun p hp' => (hp p hp').1) he het
  told r' hr' := by
    rw [hu.spawn_trades, List.mem_append, List.mem_singleton] at hr'
    have hnot : ¬ d.Has row.id := fun hc => hu.id (has_iff.mp hc)
    rcases hr' with hr' | rfl
    · have hne : row.id ≠ r'.id := fun hc => hnot (hc ▸ has_of_mem hr')
      have hev : (d.spawn row now e).eventsOf r'.id = d.eventsOf r'.id := by
        rw [hu.eventsOf_spawn he, if_neg hne]
      have ht := h.told r' hr'
      refine ⟨by rw [hev]; exact ht.seqs, by rw [hev]; exact ht.opened,
        by rw [hev]; exact ht.realized, by rw [hev]; exact ht.live, by rw [hev]; exact ht.ended, ?_⟩
      rw [hev, hu.childrenOf_spawn]
      split
      · next hpar =>
        rw [List.length_append]
        exact (hp _ hpar).2
      · rw [List.append_nil]
        exact ht.children
    · have hev : (d.spawn r' now e).eventsOf r'.id = [e.row now 0] := by
        rw [hu.eventsOf_spawn he, if_pos rfl]
      have hch : (d.spawn r' now e).childrenOf r'.id = [] := by
        have hself : r'.parentPositionId ≠ some r'.id := fun hc => hnot (hp _ hc).1
        rw [hu.childrenOf_spawn, if_neg hself, List.append_nil]
        refine List.filter_eq_nil_iff.mpr fun x hx hc => hnot ?_
        exact h.minted.parents x hx _ (of_decide_eq_true hc)
      refine ⟨by rw [hev]; rfl, ⟨_, [], hev, het, by simp⟩, ?_, fun _ b hb => ?_,
        fun hc => absurd hst hc, ?_⟩
      · rw [hev, deltas_row]
        exact hreal
      · rw [hev] at hb
        rw [List.mem_singleton.mp hb]
        rintro (hc | hc) <;> rw [show (e.row now 0).eventType = .open_ from het] at hc <;> cases hc
      · rw [hch]
        exact Nat.zero_le _

end Ledger

open Ledger

/-! ## The helpers -/

@[simp] theorem pyOr_some_zero (v : ℚ) : pyOr (some v) 0 = v := by
  simp [pyOr, eq_comm]

section Matches

variable (r : TradeRow)

theorem ScaleArgs.realizedDelta_of_up (a : ScaleArgs) (row : ScaleCols)
    (h : ¬ a.qtyDelta row < 0) : a.realizedDelta row = 0 :=
  if_neg fun hc => h hc.1

theorem ScaleArgs.matches_ (a : ScaleArgs) :
    Matches (a.event r.scaleCols) (a.update r.scaleCols) r where
  notOpen := by
    dsimp only [ScaleArgs.event]
    split <;> exact fun h => nomatch h
  realized v hv := by
    rw [ScaleArgs.update]
    simp only [hv, Option.getD_some, Option.some.injEq, add_right_inj]
    split
    · rfl
    · next h => exact (a.realizedDelta_of_up _ h).symm
  live _ := rfl
  ended h := by
    dsimp only [ScaleArgs.event] at h
    split at h <;> rcases h with h | h <;> cases h

theorem LeverageArgs.matches_ (a : LeverageArgs) :
    Matches (a.event r.leverageCols) (a.update r.leverageCols) r where
  notOpen := fun h => nomatch h
  realized v hv := by
    rw [LeverageArgs.update, LeverageArgs.event, hv, add_zero]
  live _ := rfl
  ended h := by rcases h with h | h <;> cases h

theorem PersistArgs.matches_ (a : PersistArgs) :
    Matches (a.event r.closeCols) (a.update r.closeCols) r where
  notOpen := fun h => nomatch h
  realized v hv := by
    simp only [PersistArgs.update, PersistArgs.cumulativePnl, TradeRow.closeCols, hv,
      pyOr_some_zero, PersistArgs.event]
  live h := absurd (.inl rfl) h
  ended _ := ⟨rfl, rfl⟩

theorem FlipArgs.matches_ (a : FlipArgs) :
    Matches (a.closeEvent r.flipCols) (a.update r.flipCols) r where
  notOpen := fun h => nomatch h
  realized v hv := by
    simp only [FlipArgs.update, FlipArgs.cumulativePnl, TradeRow.flipCols, hv, pyOr_some_zero,
      FlipArgs.closeEvent]
  live h := absurd (.inr rfl) h
  ended _ := ⟨rfl, rfl⟩

end Matches

namespace Ledger

variable {env : Env} {d d' : Ledger} {tid : String} {r : TradeRow} {now : Time} {e : RecordArgs}

/-- A terminal event is always recorded on an open trade. -/
theorem Consistent.recorded_terminal (h : d.Consistent) (now : Time)
    (hr : d.openTrade? tid = some r) (he : e.tradeId = tid) (ht : e.eventType.Terminal) :
    d.recorded now e ≠ [] := by
  obtain ⟨hm, rfl, ho⟩ := openTrade?_eq_some hr
  have hnew : ∀ b ∈ d.eventsOf e.tradeId, b.eventType ≠ e.eventType := fun b hb hc => by
    refine (h.told r hm).live ho b (he ▸ hb) ?_
    rw [hc]
    exact ht
  rw [recorded_of_new hnew]
  exact List.cons_ne_nil _ _

/-- What a flip leaves after its first leg: the flipped trade has no child yet. -/
theorem Consistent.flips_amend {u : TradeUpdate} (h : d.Consistent)
    (hr : d.openTrade? tid = some r) (he : e.tradeId = tid) (ht : e.eventType = .flip) :
    ((d.amend tid u now e).childrenOf tid).length < flips ((d.amend tid u now e).eventsOf tid) := by
  have hrec := h.recorded_terminal now hr he (.inr ht)
  have hev := eventsOf_amend_self (u := u) hr he hrec
  obtain ⟨hm, rfl, ho⟩ := openTrade?_eq_some hr
  rw [childrenOf, amend_entries, ← childrenOf, (h.told r hm).no_children ho, hev, flips,
    List.countP_append]
  simp [RecordArgs.row, ht]

/-- Every effect only adds. -/
theorem Minted.grows {c : Call} (h : d.Minted) (hc : c.Effect env d d') : d.Grows d' := by
  cases hc with
  | @opened a hk =>
    refine (h.unused rfl ?_).grows rfl
    rintro k ⟨⟩
    exact hk
  | @flipped a r mid hr _ _ hmid =>
    have hm : mid.Minted := hmid ▸ h.amend (has_of_openTrade? hr)
    have hg : d.Grows mid := hmid ▸ grows_amend
    exact hg.trans ((hm.unused rfl (by rintro k ⟨⟩)).grows rfl)
  | scaled | leveraged | closed => exact grows_amend

/-- The step lemma. -/
theorem Consistent.effect {c : Call} (h : d.Consistent) (hc : c.Effect env d d') :
    d'.Consistent := by
  cases hc with
  | @opened a hk =>
    refine h.spawn (h.minted.unused rfl ?_) rfl rfl rfl rfl rfl rfl ?_
    · rintro k ⟨⟩
      exact hk
    · rintro p ⟨⟩
  | scaled hr _ hrec => exact h.amend hr rfl hrec (ScaleArgs.matches_ ..)
  | leveraged hr hrec => exact h.amend hr rfl hrec (LeverageArgs.matches_ ..)
  | @flipped a r mid hr _ _ hmid =>
    have hm : mid.Consistent :=
      hmid ▸ h.amend hr rfl (h.recorded_terminal _ hr rfl (.inr rfl)) (FlipArgs.matches_ ..)
    refine hm.spawn (hm.minted.unused rfl (by rintro k ⟨⟩)) rfl rfl rfl rfl rfl rfl ?_
    rintro p ⟨⟩
    rw [hmid]
    exact ⟨grows_amend.has (has_of_openTrade? hr), h.flips_amend hr rfl rfl⟩
  | closed _ hr =>
    exact h.amend hr rfl (h.recorded_terminal _ hr rfl (.inl rfl)) (PersistArgs.matches_ ..)

theorem Consistent.run (h : d.Consistent) (c : Call) : (c.run env d).1.Consistent := by
  rcases c.run_cases env h.minted with hc | hc
  · rw [hc]
    exact h
  · exact h.effect hc

end Ledger

/-- The ledger after the listed calls, one at a time. -/
def runAll (env : Env) (calls : List Call) (d : Ledger) : Ledger :=
  calls.foldl (fun d c => (c.run env d).1) d

@[simp] theorem runAll_nil (env : Env) (d : Ledger) : runAll env [] d = d := rfl

@[simp] theorem runAll_cons (env : Env) (c : Call) (calls : List Call) (d : Ledger) :
    runAll env (c :: calls) d = runAll env calls (c.run env d).1 := rfl

@[simp] theorem runAll_append (env : Env) (calls calls' : List Call) (d : Ledger) :
    runAll env (calls ++ calls') d = runAll env calls' (runAll env calls d) :=
  List.foldl_append

theorem Ledger.Consistent.grows {env : Env} {d : Ledger} (h : d.Consistent) (c : Call) :
    d.Grows (c.run env d).1 := by
  rcases c.run_cases env h.minted with hc | hc
  · rw [hc]
    exact .refl d
  · exact h.minted.grows hc

/-- The run lemma. -/
theorem Ledger.consistent_runAll {env : Env} {d : Ledger} (h : d.Consistent) (calls : List Call) :
    (runAll env calls d).Consistent := by
  induction calls generalizing d with
  | nil => exact h
  | cons c calls ih => exact ih (h.run c)

theorem Ledger.grows_runAll {env : Env} {d : Ledger} (h : d.Consistent) (calls : List Call) :
    d.Grows (runAll env calls d) := by
  induction calls generalizing d with
  | nil => exact .refl d
  | cons c calls ih => exact (h.grows c).trans (ih (h.run c))

end P300
