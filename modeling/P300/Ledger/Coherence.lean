import P300.Ledger.History
import P300.Lib.Runs
import Mathlib.Data.List.Dedup

/-!
# The coherence audit

`strategies/support/ledger_coherence.py` counts the trades whose events do not tell their lifecycle.
Every count but one is zero on every ledger that the lifecycle calls leave: a flipped trade is
closed by a `FLIP` event, which the audit does not take for its end.
-/

namespace P300

open TxnStore Ledger

/-- `JPLUS_MIGRATION_CUTOFF_ISO`, 2026-05-05. -/
def jplusMigrationCutoff : Time := 20_578 * 86_400_000_000

/-- The counts of the audit that read the adjustments. -/
structure LedgerCoherence where
  nPostJplusOpenMissingOpenEvent : ℕ
  nPostJplusClosedMissingCloseEvent : ℕ
  nTradesWithAdjustmentSeqGaps : ℕ
  nDuplicateAdjustmentEvents : ℕ
  nTradesWithRepeatedLifecycleEvents : ℕ
  deriving DecidableEq

namespace Ledger

/-- The trades that the audit of a variant looks at; an empty filter is none. The ISO texts that the
query compares are in the order of their instants. -/
def InScope (variantFilter : Option String) (r : TradeRow) : Prop :=
  r.createdAt ≥ jplusMigrationCutoff ∧ ∀ v ∈ variantFilter, v ≠ "" → r.strategyVariant = v

instance (variantFilter : Option String) (r : TradeRow) : Decidable (InScope variantFilter r) :=
  inferInstanceAs (Decidable (_ ∧ _))

/-- The trade has an event of the type. -/
def HasEvent (d : Ledger) (tid : String) (eventType : EventType) : Prop :=
  ∃ a ∈ d.adjustments, a.tradeId = tid ∧ a.eventType = eventType

instance (d : Ledger) (tid : String) (eventType : EventType) :
    Decidable (d.HasEvent tid eventType) :=
  inferInstanceAs (Decidable (∃ a ∈ d.adjustments, _))

/-- `HAVING MAX(a.seq) != COUNT(a.seq) - 1` of the events that a trade has. -/
def SeqGap (d : Ledger) (tid : String) : Prop :=
  ∃ maxSeq ∈ ((d.eventsOf tid).map (·.seq)).max?, maxSeq + 1 ≠ (d.eventsOf tid).length

instance (d : Ledger) (tid : String) : Decidable (d.SeqGap tid) :=
  inferInstanceAs (Decidable (∃ maxSeq ∈ _, _))

/-- `_adjustment_coherence` -/
def adjustmentCoherence (variantFilter : Option String) (d : Ledger) : ℕ × ℕ × ℕ :=
  let scope := d.trades.filter fun r => InScope variantFilter r
  (scope.countP fun r => r.status = .open_ ∧ ¬ d.HasEvent r.id .open_,
    scope.countP fun r => r.status = .closed ∧ ¬ d.HasEvent r.id .close,
    scope.countP fun r => d.SeqGap r.id)

/-- The groups of a `GROUP BY ... HAVING COUNT(*) > 1`. -/
def repeatedKeys {κ : Type} [DecidableEq κ] (keys : List κ) : List κ :=
  keys.dedup.filter fun k => keys.count k > 1

/-- `_duplicate_adjustment_events` -/
def duplicateAdjustmentEvents (d : Ledger) : List (String × Int × EventType) :=
  repeatedKeys (d.adjustments.map fun a => (a.tradeId, a.eventDate, a.eventType))

/-- `_repeated_lifecycle_events` -/
def repeatedLifecycleEvents (d : Ledger) : List (String × EventType) :=
  repeatedKeys ((d.adjustments.filter fun a => a.eventType = .open_ ∨
    a.eventType = .close).map fun a =>
    (a.tradeId, a.eventType))

/-- `audit_ledger`, less the counts that do not read the adjustments. -/
def auditLedger (variantFilter : Option String) (d : Ledger) : LedgerCoherence :=
  let (nNoOpen, nNoClose, nSeqGaps) := d.adjustmentCoherence variantFilter
  ⟨nNoOpen, nNoClose, nSeqGaps, d.duplicateAdjustmentEvents.length,
    d.repeatedLifecycleEvents.length⟩

/-- All counts are zero. -/
def Coherent (variantFilter : Option String) (d : Ledger) : Prop :=
  d.auditLedger variantFilter = ⟨0, 0, 0, 0, 0⟩

instance (variantFilter : Option String) (d : Ledger) : Decidable (d.Coherent variantFilter) :=
  inferInstanceAs (Decidable (_ = _))

/-! ## What a consistent ledger passes -/

section passes

variable {d : Ledger} {r : TradeRow}

theorem repeatedKeys_eq_nil {κ : Type} [DecidableEq κ] {keys : List κ} (h : keys.Nodup) :
    repeatedKeys keys = [] := by
  refine List.filter_eq_nil_iff.mpr fun k _ => ?_
  have hle : keys.count k ≤ 1 := List.nodup_iff_count_le_one.mp h k
  simpa using hle

theorem mem_eventsOf {a : Adjustment} {tid : String} :
    a ∈ d.eventsOf tid ↔ a ∈ d.adjustments ∧ a.tradeId = tid := by
  rw [eventsOf, List.mem_filter, decide_eq_true_iff]

theorem hasEvent_iff {tid : String} {eventType : EventType} :
    d.HasEvent tid eventType ↔ ∃ a ∈ d.eventsOf tid, a.eventType = eventType := by
  simp only [HasEvent, mem_eventsOf]
  constructor
  · rintro ⟨a, ha, hid, htype⟩
    exact ⟨a, ⟨ha, hid⟩, htype⟩
  · rintro ⟨a, ⟨ha, hid⟩, htype⟩
    exact ⟨a, ha, hid, htype⟩

theorem Told.hasOpen (h : d.Told r) : d.HasEvent r.id .open_ := by
  obtain ⟨b, es, hes, hb, _⟩ := h.opened
  exact hasEvent_iff.mpr ⟨b, hes ▸ List.mem_cons_self, hb⟩

theorem Told.no_seqGap (h : d.Told r) : ¬ d.SeqGap r.id := by
  rintro ⟨maxSeq, hmax, hne⟩
  rw [h.seqs] at hmax
  cases hlen : (d.eventsOf r.id).length with
  | zero =>
    rw [hlen] at hmax
    cases hmax
  | succ n =>
    rw [hlen] at hmax hne
    obtain ⟨hmem, hle⟩ := List.max?_eq_some_iff.mp hmax
    have hlt := List.mem_range.mp hmem
    have hge := hle n (List.mem_range.mpr (Nat.lt_succ_self n))
    omega

/-- A trade opens once and closes once. -/
theorem Told.lifecycle_once (h : d.Told r) {eventType : EventType}
    (htype : eventType = .open_ ∨ eventType = .close) :
    ((d.eventsOf r.id).filter fun a => a.eventType = eventType).length ≤ 1 := by
  rcases htype with rfl | rfl
  · obtain ⟨b, es, hes, hb, hothers⟩ := h.opened
    have hnone : es.filter (fun a => a.eventType = .open_) = [] :=
      List.filter_eq_nil_iff.mpr fun a ha => by simpa using hothers a ha
    rw [hes, List.filter_cons_of_pos (by simpa using hb), hnone]
    exact le_refl 1
  · by_cases ho : r.status = .open_
    · have hnone : (d.eventsOf r.id).filter (fun a => a.eventType = .close) = [] :=
        List.filter_eq_nil_iff.mpr fun a ha hc => h.live ho a ha (.inl (of_decide_eq_true hc))
      rw [hnone]
      exact Nat.zero_le 1
    · obtain ⟨-, es, b, hes, -, hothers⟩ := h.ended ho
      have hnone : es.filter (fun a => a.eventType = .close) = [] :=
        List.filter_eq_nil_iff.mpr fun a ha hc => hothers a ha (.inl (of_decide_eq_true hc))
      rw [hes, List.filter_append, hnone, List.nil_append]
      exact List.length_filter_le ..

theorem Consistent.duplicates (d : Ledger) : d.duplicateAdjustmentEvents = [] :=
  repeatedKeys_eq_nil d.days_nodup

theorem Consistent.repeated (h : d.Consistent) : d.repeatedLifecycleEvents = [] := by
  refine repeatedKeys_eq_nil (List.nodup_iff_count_le_one.mpr fun k => ?_)
  by_cases hk : k ∈ (d.adjustments.filter fun a => a.eventType = .open_ ∨ a.eventType = .close).map
      fun a => (a.tradeId, a.eventType)
  · obtain ⟨a, ha, rfl⟩ := List.mem_map.mp hk
    obtain ⟨hmem, htype⟩ := List.mem_filter.mp ha
    replace htype := of_decide_eq_true htype
    obtain ⟨x, hx, hid⟩ := h.minted.owned a hmem
    obtain ⟨r, hr, rfl⟩ := List.mem_map.mp hx
    refine le_trans (le_of_eq ?_) ((h.told r hr).lifecycle_once htype)
    rw [List.count, List.countP_map, List.countP_filter, List.countP_eq_length_filter, eventsOf,
      List.filter_filter, hid]
    congr 1
    refine List.filter_congr fun b _ => ?_
    by_cases ht : b.eventType = a.eventType
    · rw [Bool.eq_iff_iff]
      simp [ht, htype]
    · simp [ht]
  · rw [List.count_eq_zero_of_not_mem hk]
    exact Nat.zero_le 1

/-- The audit of a consistent ledger counts its closed trades without a `CLOSE` event, and nothing
else. -/
theorem Consistent.coherent_iff (h : d.Consistent) (variantFilter : Option String) :
    d.Coherent variantFilter ↔ ∀ r ∈ d.trades, InScope variantFilter r → r.status = .closed →
      d.HasEvent r.id .close := by
  have hopen : ((d.trades.filter fun r => InScope variantFilter r).countP fun r =>
      r.status = .open_ ∧ ¬ d.HasEvent r.id .open_) = 0 :=
    List.countP_eq_zero.mpr fun r hr hc =>
      (of_decide_eq_true hc).2 (h.told r (List.mem_filter.mp hr).1).hasOpen
  have hgaps : ((d.trades.filter fun r => InScope variantFilter r).countP fun r => d.SeqGap r.id) =
      0 :=
    List.countP_eq_zero.mpr fun r hr hc =>
      (h.told r (List.mem_filter.mp hr).1).no_seqGap (of_decide_eq_true hc)
  have haudit : d.auditLedger variantFilter =
      ⟨0, (d.trades.filter fun r => InScope variantFilter r).countP fun r =>
        r.status = .closed ∧ ¬ d.HasEvent r.id .close, 0, 0, 0⟩ := by
    rw [auditLedger, adjustmentCoherence]
    dsimp only
    rw [hopen, hgaps, Consistent.duplicates, h.repeated]
    rfl
  rw [Coherent, haudit, LedgerCoherence.mk.injEq]
  simp only [true_and, and_true]
  rw [List.countP_eq_zero]
  constructor
  · intro hnone r hr hscope hclosed
    by_contra hmissing
    exact hnone r (List.mem_filter.mpr ⟨hr, decide_eq_true hscope⟩)
      (decide_eq_true ⟨hclosed, hmissing⟩)
  · intro hall r hr hc
    obtain ⟨hmem, hscope⟩ := List.mem_filter.mp hr
    obtain ⟨hclosed, hmissing⟩ := of_decide_eq_true hc
    exact hmissing (hall r hmem (of_decide_eq_true hscope) hclosed)

end passes

/-! ## Flips -/

/-- No trade that the audit looks at has been flipped. -/
def Unflipped (d : Ledger) : Prop :=
  ∀ r ∈ d.trades, jplusMigrationCutoff ≤ r.createdAt → ∀ b ∈ d.eventsOf r.id, b.eventType ≠ .flip

section Unflipped

variable {d : Ledger} {tid : String} {r row : TradeRow} {u : TradeUpdate} {now : Time}
  {e : RecordArgs}

theorem Unflipped.empty : Unflipped empty := fun _ h => nomatch h

/-- A closed trade that was not flipped has its `CLOSE` event. -/
theorem Unflipped.coherent (hd : d.Consistent) (h : d.Unflipped) (variantFilter : Option String) :
    d.Coherent variantFilter := by
  refine (hd.coherent_iff variantFilter).mpr fun r hr hscope hclosed => ?_
  have hno : r.status ≠ .open_ := fun ho => by
    rw [hclosed] at ho
    cases ho
  obtain ⟨-, es, b, hes, hb, -⟩ := (hd.told r hr).ended hno
  have hmem : b ∈ d.eventsOf r.id := hes ▸ List.mem_append_right es (List.mem_singleton_self b)
  exact hasEvent_iff.mpr ⟨b, hmem, hb.resolve_right (h r hr hscope.1 b hmem)⟩

theorem Unflipped.amend (h : d.Unflipped) (hr : d.openTrade? tid = some r) (he : e.tradeId = tid)
    (hrec : d.recorded now e ≠ [])
    (hkind : jplusMigrationCutoff ≤ r.createdAt → e.eventType ≠ .flip) :
    (d.amend tid u now e).Unflipped := by
  intro r' hr' hcutoff b hb
  obtain ⟨hmem, _, _⟩ := openTrade?_eq_some hr
  rcases mem_amend hr hr' with rfl | ⟨hmem', hne⟩
  · have hev : (d.amend tid u now e).eventsOf r.id =
        d.eventsOf r.id ++ [e.row now (d.nextSeq r.id)] :=
      eventsOf_amend_self hr he hrec
    have hb : b ∈ (d.amend tid u now e).eventsOf r.id := hb
    rw [hev, List.mem_append, List.mem_singleton] at hb
    rcases hb with hb | rfl
    · exact h r hmem hcutoff b hb
    · exact hkind hcutoff
  · rw [eventsOf_amend, if_neg (fun h' => hne (h'.symm.trans he)), List.append_nil] at hb
    exact h r' hmem' hcutoff b hb

theorem Unflipped.spawn (h : d.Unflipped) (hu : d.Unused row) (he : e.tradeId = row.id)
    (hkind : e.eventType = .open_) : (d.spawn row now e).Unflipped := by
  intro r' hr' hcutoff b hb
  rw [hu.spawn_trades, List.mem_append, List.mem_singleton] at hr'
  rcases hr' with hr' | rfl
  · have hne : row.id ≠ r'.id := fun hc => hu.id (hc ▸ List.mem_map_of_mem hr')
    rw [hu.eventsOf_spawn he, if_neg hne] at hb
    exact h r' hr' hcutoff b hb
  · rw [hu.eventsOf_spawn he, if_pos rfl, List.mem_singleton] at hb
    rw [hb, show (e.row now 0).eventType = .open_ from hkind]
    exact fun h => nomatch h

end Unflipped

end Ledger

/-- A flip that takes effect is of a trade that was opened before the migration. -/
def Call.SparesAudited (d : Ledger) : Call → Prop
  | .flip a => ∀ r, d.openTrade? a.tradeId = some r → (∀ text, a.newDirection ≠ .other text) →
    r.direction ≠ a.newDirection → r.createdAt < jplusMigrationCutoff
  | _ => True

section steps

variable {env : Env} {d d' : Ledger}

theorem Ledger.Unflipped.effect {c : Call} (hd : d.Consistent) (h : d.Unflipped)
    (hspares : c.SparesAudited d) (hc : c.Effect env d d') : d'.Unflipped := by
  cases hc with
  | @opened a hk => exact h.spawn (hd.minted.unused rfl (by rintro k ⟨⟩; exact hk)) rfl rfl
  | scaled hr _ hrec =>
    refine h.amend hr rfl hrec fun _ => ?_
    dsimp only [ScaleArgs.event]
    split <;> exact fun h => nomatch h
  | leveraged hr hrec => exact h.amend hr rfl hrec fun _ h => nomatch h
  | @flipped a r mid hr hdir hne hmid =>
    have hmidM : mid.Minted := hmid ▸ hd.minted.amend (has_of_openTrade? hr)
    have hmidU : mid.Unflipped :=
      hmid ▸ h.amend hr rfl (hd.recorded_terminal _ hr rfl (.inr rfl)) fun hcutoff =>
        absurd (hspares r hr hdir hne) (not_lt.mpr hcutoff)
    exact hmidU.spawn (hmidM.unused rfl (by rintro k ⟨⟩)) rfl rfl
  | closed _ hr =>
    exact h.amend hr rfl (hd.recorded_terminal _ hr rfl (.inl rfl)) fun _ h => nomatch h

/-- After a flip the flipped trade has no `CLOSE` event. -/
theorem flip_missing_close {a : FlipArgs} {r : TradeRow} (hd : d.Consistent)
    (hr : d.openTrade? a.tradeId = some r) (hdir : ∀ text, a.newDirection ≠ .other text)
    (hne : r.direction ≠ a.newDirection) (hcutoff : jplusMigrationCutoff ≤ r.createdAt) :
    ¬ ((Call.flip a).run env d).1.Coherent none := by
  obtain ⟨hmem, hid, ho⟩ := openTrade?_eq_some hr
  obtain ⟨mid, hmid⟩ : ∃ mid, mid = d.amend a.tradeId (a.update r.flipCols) a.flipTime
    (a.closeEvent r.flipCols) := ⟨_, rfl⟩
  have hmidM : mid.Minted := hmid ▸ hd.minted.amend (has_of_openTrade? hr)
  have hu : mid.Unused (a.childRow r.flipCols mid.nextSjId) := hmidM.unused rfl (by rintro k ⟨⟩)
  have hset : r.set (a.update r.flipCols) ∈ mid.trades := hmid ▸ set_mem_amend hr
  have hrun : ((Call.flip a).run env d).1 =
      mid.spawn (a.childRow r.flipCols mid.nextSjId) a.flipTime
      (a.openEvent r.flipCols mid.nextSjId) :=
    congrArg Prod.fst (applyFlip_run hd.minted hr hdir hne hmid)
  intro hcoherent
  have hclose := ((hd.run (.flip a)).coherent_iff none).mp hcoherent (r.set (a.update r.flipCols))
    (by rw [hrun, hu.spawn_trades]; exact List.mem_append_left _ hset) ⟨hcutoff, by simp⟩ rfl
  obtain ⟨b, hb, htype⟩ := hasEvent_iff.mp hclose
  have hold : r.id ∈ mid.trades.map (·.id) := List.mem_map.mpr ⟨_, hset, rfl⟩
  have hnew : (a.childRow r.flipCols mid.nextSjId).id ≠ r.id := fun hc => hu.id (hc ▸ hold)
  have hev : mid.eventsOf r.id =
      d.eventsOf r.id ++ [(a.closeEvent r.flipCols).row a.flipTime (d.nextSeq r.id)] :=
    hmid ▸ eventsOf_amend_self hr rfl (hd.recorded_terminal _ hr rfl (.inr rfl))
  have hb : b ∈ ((Call.flip a).run env d).1.eventsOf r.id := hb
  rw [hrun, hu.eventsOf_spawn rfl, if_neg hnew, hev, List.mem_append, List.mem_singleton] at hb
  rcases hb with hb | rfl
  · exact (hd.told r hmem).live ho b hb (.inl htype)
  · cases htype

/-- The step lemma: the audit stays clean exactly if the call flips no trade that it looks at. -/
theorem Call.sparesAudited_iff (env : Env) (hd : d.Consistent) (h : d.Unflipped) (c : Call) :
    (c.SparesAudited d → (c.run env d).1.Unflipped) ∧
      ((c.run env d).1.Coherent none → c.SparesAudited d) := by
  constructor
  · intro hspares
    rcases c.run_cases env hd.minted with hrun | hrun
    · rwa [hrun]
    · exact h.effect hd hspares hrun
  · intro hcoherent
    cases c with
    | flip a =>
      intro r hr hdir hne
      by_contra hcutoff
      exact flip_missing_close hd hr hdir hne (not_lt.mp hcutoff) hcoherent
    | openTrade | scale | leverage | closePerp | closeCarry | persistClose => trivial

end steps

/-! ## Every run -/

theorem coherent_runs_iff (env : Env) {d : Ledger} {calls : List Call} (hd : d.Consistent)
    (h : d.Unflipped) : (∀ n variantFilter, (runAll env (calls.take n) d).Coherent variantFilter) ↔
      ∀ n (c : Call), calls[n]? = some c → c.SparesAudited (runAll env (calls.take n) d) := by
  refine Runs.all_good_iff (fun _ d => d.Consistent ∧ d.Unflipped)
    (fun d => ∀ variantFilter, d.Coherent variantFilter) Call.SparesAudited ?_ ?_ ?_ ⟨hd, h⟩
  · rintro _ d ⟨hd, h⟩
    exact h.coherent hd
  · rintro c _ d ⟨hd, h⟩ hc
    exact ⟨hd.run c, (c.sparesAudited_iff env hd h).1 hc⟩
  · rintro c _ d ⟨hd, h⟩ hcoherent
    exact (c.sparesAudited_iff env hd h).2 (hcoherent none)

/-- The audit is clean on all ledgers of a run from the empty one exactly if no call of the run
flips a trade that was opened after the migration. -/
theorem audit_clean_iff (env : Env) (calls : List Call) :
    (∀ n variantFilter, (runAll env (calls.take n) empty).Coherent variantFilter) ↔
      ∀ n (c : Call), calls[n]? = some c → c.SparesAudited (runAll env (calls.take n) empty) :=
  coherent_runs_iff env .empty .empty

/-- A trade that is flipped an hour after its opening. -/
def flippedOnce : List Call := [
  .openTrade {
    variantId := "V", sleeveName := "EMA_BTC", asset := "BTC", direction :=
      .long, entryPrice := 1000,
    allocationPct := 10, signalTimeIso := some "k", now := jplusMigrationCutoff + 3_600_000_000 },
  .flip {
    tradeId := "SJ-0001", newDirection := .short, price := 1000,
    now := jplusMigrationCutoff + 7_200_000_000 }]

/-- After the flip the audit counts a closed trade without a `CLOSE` event. -/
theorem audit_flags_flip : ¬ ∀ env calls variantFilter,
    (runAll env calls empty).Coherent variantFilter := by
  intro h
  exact absurd (h quietEnv flippedOnce none) (by decide +kernel)

end P300
