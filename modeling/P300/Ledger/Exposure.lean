import P300.Ledger.History
import P300.Lib.Runs
import Mathlib.Algebra.BigOperators.Group.List.Lemmas
import Mathlib.Tactic.Ring
import Mathlib.Tactic.Linarith

/-!
# Exposure readers

Three readers add up the notional of a variant's open trades:
`margin_headroom.current_gross_notional_usdt` from the size at the entry, `botlib.open_gross_usdt`
from the running size, and the adjustment ledger from the latest event of each trade. The last two
agree on every ledger that the lifecycle calls leave; the first agrees with them as long as no
resize leaves another notional than the one at the entry.
-/

namespace P300

open TxnStore Ledger

namespace Ledger

/-- The open trades of a variant. Every writer stores `'paper'` as the `execution_mode`. -/
def openOf (variantId : String) (d : Ledger) : List TradeRow :=
  d.trades.filter fun r => r.strategyVariant = variantId ∧ r.status = .open_

/-- `margin_headroom.current_gross_notional_usdt` -/
def currentGrossNotionalUsdt (variantId : String) (d : Ledger) : ℚ :=
  ((d.openOf variantId).map fun r => r.sizeUsdt.getD 0).sum

/-- `botlib.open_gross_usdt` -/
def openGrossUsdt (variantId : String) (d : Ledger) : ℚ :=
  ((d.openOf variantId).map fun r => (r.currentSizeUsdt <|> r.sizeUsdt).getD 0).sum

/-- `margin_headroom._NEUTRAL_STRATEGIES` -/
def headroomNeutralStrategies : List String := ["CARRY", "S-078"]

/-- The two entries of the result of `current_gross_by_direction_usdt`. -/
structure GrossByDirection where
  long : ℚ
  short : ℚ

/-- `margin_headroom.current_gross_by_direction_usdt` -/
def currentGrossByDirectionUsdt (variantId : String) (d : Ledger) : GrossByDirection :=
  let total (direction : Direction) : ℚ :=
    (((d.openOf variantId).filter fun r =>
      r.direction = direction ∧ r.strategy ∉ headroomNeutralStrategies).map fun r =>
        r.sizeUsdt.getD 0).sum
  ⟨total .long, total .short⟩

/-- The sum of the `size_usdt_after` of each open trade's latest adjustment. -/
def latestGrossUsdt (variantId : String) (d : Ledger) : ℚ :=
  ((d.openOf variantId).map fun r =>
    ((d.getAdjustments r.id).getLast?.bind (·.sizeUsdtAfter)).getD 0).sum

/-- The part of the gross notional that the delta-neutral trades hold. -/
def neutralGrossUsdt (variantId : String) (d : Ledger) : ℚ :=
  (((d.openOf variantId).filter fun r => r.strategy ∈ headroomNeutralStrategies).map fun r =>
    r.sizeUsdt.getD 0).sum

/-- All readers of the variant's exposure tell the same. -/
structure ReadersAgree (variantId : String) (d : Ledger) : Prop where
  current : d.currentGrossNotionalUsdt variantId = d.openGrossUsdt variantId
  latest : d.openGrossUsdt variantId = d.latestGrossUsdt variantId
  byDirection : (d.currentGrossByDirectionUsdt variantId).long +
      (d.currentGrossByDirectionUsdt variantId).short =
    d.currentGrossNotionalUsdt variantId - d.neutralGrossUsdt variantId

end Ledger

/-! ## What the readers miss of a trade -/

namespace TradeRow

/-- The running size past the size at the entry. -/
def drift (r : TradeRow) : ℚ := (r.currentSizeUsdt <|> r.sizeUsdt).getD 0 - r.sizeUsdt.getD 0

/-- The size that the sums by direction leave out, a delta-neutral one apart. -/
def unseen (r : TradeRow) : ℚ :=
  if r.direction = .long ∨ r.direction = .short ∨ r.strategy ∈ headroomNeutralStrategies then 0
  else r.sizeUsdt.getD 0

theorem unseen_eq (r : TradeRow) : r.unseen = r.sizeUsdt.getD 0 -
    (if r.strategy ∈ headroomNeutralStrategies then r.sizeUsdt.getD 0 else 0) -
    ((if r.direction = .long ∧ r.strategy ∉ headroomNeutralStrategies
      then r.sizeUsdt.getD 0 else 0) +
      if r.direction = .short ∧ r.strategy ∉ headroomNeutralStrategies then r.sizeUsdt.getD 0
        else 0) := by
  rw [unseen]
  by_cases hs : r.strategy ∈ headroomNeutralStrategies
  · rw [if_pos (.inr (.inr hs)), if_pos hs, if_neg fun h => h.2 hs, if_neg fun h => h.2 hs]
    ring
  · cases hd : r.direction with
    | long => simp [hs]
    | short => simp [hs]
    | other => simp [hs]

end TradeRow

namespace Ledger

variable {d : Ledger} {v tid : String} {r : TradeRow} {u : TradeUpdate} {now : Time}
  {e : RecordArgs} {row : TradeRow}

theorem mem_openOf : r ∈ d.openOf v ↔ r ∈ d.trades ∧ r.strategyVariant = v ∧ r.status = .open_ := by
  rw [openOf, List.mem_filter, decide_eq_true_iff]

theorem openOf_nodup (d : Ledger) (v : String) : (d.openOf v).Nodup :=
  (List.Nodup.of_map _ d.ids_nodup).filter _

theorem openGross_sub (d : Ledger) (v : String) :
    d.openGrossUsdt v - d.currentGrossNotionalUsdt v = ((d.openOf v).map TradeRow.drift).sum := by
  rw [openGrossUsdt, currentGrossNotionalUsdt]
  induction d.openOf v with
  | nil => exact sub_zero 0
  | cons r rs ih =>
    simp only [List.map_cons, List.sum_cons, ← ih, TradeRow.drift]
    ring

theorem sum_filter_cons (p : TradeRow → Prop) [DecidablePred p] (f : TradeRow → ℚ) (r : TradeRow)
    (rs : List TradeRow) : (((r :: rs).filter fun r => p r).map f).sum =
      (if p r then f r else 0) + ((rs.filter fun r => p r).map f).sum := by
  rw [List.filter_cons]
  by_cases hr : p r
  · rw [if_pos (decide_eq_true hr), if_pos hr, List.map_cons, List.sum_cons]
  · rw [if_neg (fun h => hr (of_decide_eq_true h)), if_neg hr, zero_add]

theorem currentGross_sub (d : Ledger) (v : String) :
    d.currentGrossNotionalUsdt v - d.neutralGrossUsdt v -
        ((d.currentGrossByDirectionUsdt v).long + (d.currentGrossByDirectionUsdt v).short) =
      ((d.openOf v).map TradeRow.unseen).sum := by
  rw [currentGrossNotionalUsdt, neutralGrossUsdt, currentGrossByDirectionUsdt]
  induction d.openOf v with
  | nil => simp
  | cons r rs ih =>
    rw [List.map_cons (f := TradeRow.unseen), List.sum_cons, ← ih, r.unseen_eq]
    simp only [List.map_cons, List.sum_cons, sum_filter_cons]
    ring

/-! ## The running size -/

/-- An open trade's running size is the one that its latest event has left. -/
structure SizeTold (d : Ledger) (r : TradeRow) : Prop where
  running : r.currentSizeUsdt.isSome
  entry : r.sizeUsdt.isSome
  latest : (d.eventsOf r.id).getLast?.bind (·.sizeUsdtAfter) = r.currentSizeUsdt

/-- The running sizes of all open trades. -/
def SizesTold (d : Ledger) : Prop := ∀ r ∈ d.trades, r.status = .open_ → d.SizeTold r

theorem SizesTold.empty : SizesTold empty := fun _ h => nomatch h

/-- An update whose event tells the size that it leaves, or that closes the trade. -/
theorem SizesTold.amend (h : d.SizesTold) (hr : d.openTrade? tid = some r) (he : e.tradeId = tid)
    (hrec : d.recorded now e ≠ [])
    (hu : (u r.toTradeState).status = .open_ →
      (u r.toTradeState).currentSizeUsdt = e.sizeUsdtAfter ∧
      e.sizeUsdtAfter.isSome) : (d.amend tid u now e).SizesTold := by
  intro r' hr' ho'
  obtain ⟨hmem, hid, ho⟩ := openTrade?_eq_some hr
  rcases mem_amend hr hr' with rfl | ⟨hmem', hne⟩
  · obtain ⟨hsize, hsome⟩ := hu ho'
    have hlast : (d.amend tid u now e).eventsOf r.id =
        d.eventsOf r.id ++ [e.row now (d.nextSeq r.id)] := eventsOf_amend_self hr he hrec
    replace hlast : (d.amend tid u now e).eventsOf (r.set u).id = _ := hlast
    refine ⟨?_, (h r hmem ho).entry, ?_⟩
    · rw [show (r.set u).currentSizeUsdt = e.sizeUsdtAfter from hsize]
      exact hsome
    · rw [hlast, List.getLast?_concat]
      exact hsize.symm
  · have hsame : (d.amend tid u now e).eventsOf r'.id = d.eventsOf r'.id := by
      rw [eventsOf_amend, if_neg (fun h' => hne (h'.symm.trans he)), List.append_nil]
    obtain ⟨hrunning, hentry, hlatest⟩ := h r' hmem' ho'
    exact ⟨hrunning, hentry, by rw [hsame, hlatest]⟩

/-- A new row whose `OPEN` event tells its size. -/
theorem SizesTold.spawn (h : d.SizesTold) (hu : d.Unused row) (he : e.tradeId = row.id)
    (hsize : row.currentSizeUsdt = e.sizeUsdtAfter) (hsome : e.sizeUsdtAfter.isSome)
    (hentry : row.sizeUsdt.isSome) : (d.spawn row now e).SizesTold := by
  intro r' hr' ho'
  rw [hu.spawn_trades, List.mem_append, List.mem_singleton] at hr'
  rcases hr' with hr' | rfl
  · have hne : row.id ≠ r'.id := fun hc => hu.id (hc ▸ List.mem_map_of_mem hr')
    obtain ⟨hrunning, hentry', hlatest⟩ := h r' hr' ho'
    exact ⟨hrunning, hentry', by rw [hu.eventsOf_spawn he, if_neg hne, hlatest]⟩
  · refine ⟨hsize ▸ hsome, hentry, ?_⟩
    rw [hu.eventsOf_spawn he, if_pos rfl]
    exact hsize.symm

/-- The step lemma. -/
theorem SizesTold.effect {env : Env} {c : Call} {d' : Ledger} (hd : d.Consistent) (h : d.SizesTold)
    (hc : c.Effect env d d') : d'.SizesTold := by
  cases hc with
  | @opened a hk =>
    exact h.spawn (hd.minted.unused rfl (by rintro k ⟨⟩; exact hk)) rfl rfl rfl rfl
  | scaled hr _ hrec => exact h.amend hr rfl hrec fun _ => ⟨rfl, rfl⟩
  | leveraged hr hrec => exact h.amend hr rfl hrec fun _ => ⟨rfl, rfl⟩
  | @flipped a r mid hr _ _ hmid =>
    have hmidM : mid.Minted := hmid ▸ hd.minted.amend (has_of_openTrade? hr)
    have hmidS : mid.SizesTold :=
      hmid ▸ h.amend hr rfl (hd.recorded_terminal _ hr rfl (.inr rfl)) fun ho => nomatch ho
    exact hmidS.spawn (hmidM.unused rfl (by rintro k ⟨⟩)) rfl rfl rfl rfl
  | closed _ hr =>
    exact h.amend hr rfl (hd.recorded_terminal _ hr rfl (.inl rfl)) fun ho => nomatch ho

theorem SizesTold.run {env : Env} (hd : d.Consistent) (h : d.SizesTold) (c : Call) :
    (c.run env d).1.SizesTold := by
  rcases c.run_cases env hd.minted with hc | hc
  · rwa [hc]
  · exact h.effect hd hc

/-- The running sizes are those of the latest events. -/
theorem SizesTold.openGross_eq (hd : d.Consistent) (h : d.SizesTold) (v : String) :
    d.openGrossUsdt v = d.latestGrossUsdt v := by
  rw [openGrossUsdt, latestGrossUsdt]
  refine congrArg List.sum (List.map_congr_left fun r hr => ?_)
  obtain ⟨hmem, _, ho⟩ := mem_openOf.mp hr
  obtain ⟨hrunning, _, hlatest⟩ := h r hmem ho
  obtain ⟨size, hsize⟩ := Option.isSome_iff_exists.mp hrunning
  rw [(hd.told r hmem).getAdjustments_eq, hlatest, hsize]
  rfl

/-! ## Trades that no reader misses -/

/-- No reader misses anything of an open trade. -/
def Seen (d : Ledger) : Prop :=
  ∀ r ∈ d.trades, r.status = .open_ → r.drift = 0 ∧ r.unseen = 0

theorem Seen.empty : Seen empty := fun _ h => nomatch h

theorem sum_eq_zero_of_seen {f : TradeRow → ℚ} (h : ∀ r ∈ d.trades, r.status = .open_ → f r = 0) :
    ((d.openOf v).map f).sum = 0 := by
  refine List.sum_eq_zero fun x hx => ?_
  obtain ⟨r, hr, rfl⟩ := List.mem_map.mp hx
  obtain ⟨hmem, _, ho⟩ := mem_openOf.mp hr
  exact h r hmem ho

/-- A sum to which only one open trade contributes. -/
theorem sum_eq_of_one {f : TradeRow → ℚ} (hr : r ∈ d.trades) (ho : r.status = .open_)
    (h : ∀ r' ∈ d.trades, r'.status = .open_ → r'.id ≠ r.id → f r' = 0) :
    ((d.openOf r.strategyVariant).map f).sum = f r := by
  have hmem : r ∈ d.openOf r.strategyVariant := mem_openOf.mpr ⟨hr, rfl, ho⟩
  rw [List.sum_map_eq_nsmul_single r f, List.count_eq_one_of_mem (d.openOf_nodup _) hmem, one_nsmul]
  intro r' hne hr'
  obtain ⟨hmem', _, ho'⟩ := mem_openOf.mp hr'
  exact h r' hmem' ho' fun hid => hne (eq_of_id hmem' hr hid)

theorem Seen.readersAgree (hd : d.Consistent) (ht : d.SizesTold) (h : d.Seen) (v : String) :
    d.ReadersAgree v where
  current := by
    have hdrift := openGross_sub d v
    rw [sum_eq_zero_of_seen fun r hr ho => (h r hr ho).1] at hdrift
    linarith
  latest := ht.openGross_eq hd v
  byDirection := by
    have hunseen := currentGross_sub d v
    rw [sum_eq_zero_of_seen fun r hr ho => (h r hr ho).2] at hunseen
    linarith

/-- Where only one open trade may be missed, the readers agree only if it is not. -/
theorem ReadersAgree.seen (hr : r ∈ d.trades) (ho : r.status = .open_)
    (hothers : ∀ r' ∈ d.trades, r'.status = .open_ → r'.id ≠ r.id → r'.drift = 0 ∧ r'.unseen = 0)
    (h : d.ReadersAgree r.strategyVariant) : r.drift = 0 ∧ r.unseen = 0 := by
  constructor
  · rw [← sum_eq_of_one hr ho fun r' hr' ho' hne => (hothers r' hr' ho' hne).1, ← openGross_sub,
      h.current, sub_self]
  · rw [← sum_eq_of_one hr ho fun r' hr' ho' hne => (hothers r' hr' ho' hne).2, ← currentGross_sub,
      h.byDirection, sub_self]

theorem Seen.amend (h : d.Seen) (hr : d.openTrade? tid = some r)
    (hu : (r.set u).status = .open_ → (r.set u).drift = 0) : (d.amend tid u now e).Seen := by
  intro r' hr' ho'
  obtain ⟨hmem, _, ho⟩ := openTrade?_eq_some hr
  rcases mem_amend hr hr' with rfl | ⟨hmem', _⟩
  · exact ⟨hu ho', (h r hmem ho).2⟩
  · exact h r' hmem' ho'

theorem Seen.spawn (h : d.Seen) (hu : d.Unused row) (hdrift : row.drift = 0)
    (hunseen : row.unseen = 0) :
    (d.spawn row now e).Seen := by
  intro r' hr' ho'
  rw [hu.spawn_trades, List.mem_append, List.mem_singleton] at hr'
  rcases hr' with hr' | rfl
  · exact h r' hr' ho'
  · exact ⟨hdrift, hunseen⟩

end Ledger

/-! ## Calls that keep the notional -/

/-- A call that takes effect keeps the notional at the entry size: an opened trade is LONG, SHORT or
delta-neutral or has no size, and a resize leaves the size at the entry. -/
def Call.KeepsNotional (d : Ledger) : Call → Prop
  | .openTrade a => a.standingDown = none → d.idOfKey? a.uniqueKey = none →
    a.direction = .long ∨ a.direction = .short ∨ a.sleeveName.toUpper ∈ headroomNeutralStrategies ∨
      a.sizeUsdt = 0
  | .scale a => ∀ r, d.openTrade? a.tradeId = some r → ¬ negligible (a.qtyDelta r.scaleCols) →
    d.recorded a.now (a.event r.scaleCols) ≠ [] → some a.newSize = r.sizeUsdt
  | .leverage a => ∀ r, d.openTrade? a.tradeId = some r →
    ¬ negligible (a.newLeverage - LeverageArgs.prevLev r.leverageCols) →
    d.recorded a.now (a.event r.leverageCols) ≠ [] → some (a.notional r.leverageCols) = r.sizeUsdt
  | _ => True

section steps

variable {env : Env} {d : Ledger} {r : TradeRow}

theorem openTrade_run {a : OpenArgs} (hd : d.Minted) (ha : a.standingDown = none)
    (hk : d.idOfKey? a.uniqueKey = none) : ((Call.openTrade a).run env d).1 =
      d.spawn (a.row d.nextSjId) a.now (a.event d.nextSjId) := by
  rw [Call.run, Call.prog, openPaperTrade_run hd a ha, hk]

theorem openTrade_refused {a : OpenArgs} (hd : d.Minted)
    (h : ¬ (a.standingDown = none ∧ d.idOfKey? a.uniqueKey = none)) :
    ((Call.openTrade a).run env d).1 = d := by
  rw [Call.run, Call.prog]
  cases ha : a.standingDown with
  | some reason =>
    rw [openPaperTrade, ha]
    rfl
  | none =>
    rw [openPaperTrade_run hd a ha]
    cases hk : d.idOfKey? a.uniqueKey with
    | none => exact absurd ⟨ha, hk⟩ h
    | some tid => rfl

theorem scale_run {a : ScaleArgs} (hr : d.openTrade? a.tradeId = some r) :
    ((Call.scale a).run env d).1 =
      if negligible (a.qtyDelta r.scaleCols) ∨ d.recorded a.now (a.event r.scaleCols) = [] then d
      else d.amend a.tradeId (a.update r.scaleCols) a.now (a.event r.scaleCols) := by
  rw [Call.run, Call.prog, applyScale, Prog.run, Prog.runWith_select, Option.getD_none, hr]
  simp only [Option.map_some]
  by_cases hn : negligible (a.qtyDelta r.scaleCols)
  · rw [if_pos hn, if_pos (.inl hn)]
    rfl
  · have hknown : ∀ text, (a.event r.scaleCols).eventType ≠ .other text := by
      intro text h
      dsimp only [ScaleArgs.event] at h
      split at h <;> cases h
    rw [if_neg hn, ← Prog.run, resize_run hknown]
    simp only [hn, false_or]
    split <;> rfl

theorem leverage_run {a : LeverageArgs} (hr : d.openTrade? a.tradeId = some r) :
    ((Call.leverage a).run env d).1 =
      if negligible (a.newLeverage - LeverageArgs.prevLev r.leverageCols) ∨
        d.recorded a.now (a.event r.leverageCols) = [] then d
      else d.amend a.tradeId (a.update r.leverageCols) a.now (a.event r.leverageCols) := by
  rw [Call.run, Call.prog, applyLeverageAdjust, Prog.run, Prog.runWith_select, Option.getD_none, hr]
  simp only [Option.map_some]
  by_cases hn : negligible (a.newLeverage - LeverageArgs.prevLev r.leverageCols)
  · rw [if_pos hn, if_pos (.inl hn)]
    rfl
  · rw [if_neg hn, ← Prog.run, resize_run (by intro text h; cases h)]
    simp only [hn, false_or]
    split <;> rfl

/-- A running size is the entry size exactly if nothing is missed. -/
theorem TradeRow.drift_eq_zero {size entry : ℚ} (hrunning : r.currentSizeUsdt = some size)
    (hentry : r.sizeUsdt = some entry) : r.drift = 0 ↔ some size = r.sizeUsdt := by
  rw [TradeRow.drift, hrunning, hentry, Option.some.injEq, ← sub_eq_zero (a := size)]
  rfl

/-- The resize of an open trade is missed by no reader exactly if it leaves the size at the
entry. -/
theorem resize_seen_iff {u : TradeUpdate} {now : Time} {e : RecordArgs} {tid : String} {size : ℚ}
    (ht : d.SizesTold) (h : d.Seen) (hr : d.openTrade? tid = some r)
    (hstatus : (u r.toTradeState).status = r.status)
    (hsize : (u r.toTradeState).currentSizeUsdt = some size) :
    (some size = r.sizeUsdt → (d.amend tid u now e).Seen) ∧
      ((d.amend tid u now e).ReadersAgree r.strategyVariant → some size = r.sizeUsdt) := by
  obtain ⟨hmem, hid, ho⟩ := openTrade?_eq_some hr
  obtain ⟨entry, hentry⟩ := Option.isSome_iff_exists.mp (ht r hmem ho).entry
  have hdrift : (r.set u).drift = 0 ↔ some size = r.sizeUsdt :=
    TradeRow.drift_eq_zero (r := r.set u) hsize hentry
  refine ⟨fun hkeep => h.amend hr fun _ => hdrift.mpr hkeep, fun hagree => hdrift.mp ?_⟩
  have hset : r.set u ∈ (d.amend tid u now e).trades := set_mem_amend hr
  refine (ReadersAgree.seen hset (hstatus.trans ho) (fun r' hr' ho' hne => ?_) hagree).1
  rcases mem_amend hr hr' with rfl | ⟨hmem', _⟩
  · exact absurd rfl hne
  · exact h r' hmem' ho'

/-- A flip or a close opens nothing but trades that are seen. -/
theorem Ledger.Seen.effect {c : Call} {d' : Ledger} (hd : d.Consistent) (h : d.Seen)
    (hc : c.Effect env d d')
    (hresize : (∀ a, c ≠ .openTrade a) ∧ (∀ a, c ≠ .scale a) ∧ ∀ a, c ≠ .leverage a) : d'.Seen := by
  obtain ⟨hopen, hscale, hleverage⟩ := hresize
  cases hc with
  | @opened a => exact absurd rfl (hopen a)
  | @scaled a => exact absurd rfl (hscale a)
  | @leveraged a => exact absurd rfl (hleverage a)
  | @flipped a r mid hr hdir _ hmid =>
    have hmidM : mid.Minted := hmid ▸ hd.minted.amend (has_of_openTrade? hr)
    have hmidS : mid.Seen := hmid ▸ h.amend hr fun ho => nomatch ho
    refine hmidS.spawn (hmidM.unused rfl (by rintro k ⟨⟩)) (sub_self _) (if_pos ?_)
    show a.newDirection = .long ∨ a.newDirection = .short ∨ _
    cases hnew : a.newDirection with
    | long => exact .inl rfl
    | short => exact .inr (.inl rfl)
    | other text => exact absurd hnew (hdir text)
  | closed _ hr => exact h.amend hr fun ho => nomatch ho

/-- An opened trade is missed by no reader exactly if its call keeps the notional. -/
theorem openTrade_keepsNotional_iff (env : Env) (hd : d.Consistent) (h : d.Seen) (a : OpenArgs) :
    ((Call.openTrade a).KeepsNotional d → ((Call.openTrade a).run env d).1.Seen) ∧
      ((∀ v, ((Call.openTrade a).run env d).1.ReadersAgree v) →
        (Call.openTrade a).KeepsNotional d) := by
  by_cases heffect : a.standingDown = none ∧ d.idOfKey? a.uniqueKey = none
  · obtain ⟨ha, hk⟩ := heffect
    have hu : d.Unused (a.row d.nextSjId) := hd.minted.unused rfl (by rintro k ⟨⟩; exact hk)
    rw [openTrade_run hd.minted ha hk]
    constructor
    · intro hkeep
      refine h.spawn hu (sub_self _) ?_
      rcases hkeep ha hk with hlong | hshort | hneutral | hzero
      · exact if_pos (.inl hlong)
      · exact if_pos (.inr (.inl hshort))
      · exact if_pos (.inr (.inr hneutral))
      · rw [TradeRow.unseen]
        split
        · rfl
        · exact hzero
    · intro hagree _ _
      have hrow : a.row d.nextSjId ∈ (d.spawn (a.row d.nextSjId) a.now
          (a.event d.nextSjId)).trades := by
        rw [hu.spawn_trades]
        exact List.mem_append_right _ (List.mem_singleton_self _)
      have hunseen := (ReadersAgree.seen hrow rfl (fun r' hr' ho' hne => by
        rw [hu.spawn_trades, List.mem_append, List.mem_singleton] at hr'
        rcases hr' with hr' | rfl
        · exact h r' hr' ho'
        · exact absurd rfl hne) (hagree _)).2
      by_contra hnot
      obtain ⟨hlong, hshort, hneutral, hzero⟩ :=
        not_or.mp hnot |>.imp_right fun h => not_or.mp h |>.imp_right not_or.mp
      rw [TradeRow.unseen, if_neg (by
        rintro (hc | hc | hc)
        · exact hlong hc
        · exact hshort hc
        · exact hneutral hc)] at hunseen
      exact hzero hunseen
  · rw [openTrade_refused hd.minted heffect]
    exact ⟨fun _ => h, fun _ ha hk => absurd ⟨ha, hk⟩ heffect⟩

theorem scale_keepsNotional_iff (env : Env) (hd : d.Consistent) (ht : d.SizesTold) (h : d.Seen)
    (a : ScaleArgs) : ((Call.scale a).KeepsNotional d → ((Call.scale a).run env d).1.Seen) ∧
      ((∀ v, ((Call.scale a).run env d).1.ReadersAgree v) → (Call.scale a).KeepsNotional d) := by
  constructor
  · intro hkeep
    rcases (Call.scale a).run_cases env hd.minted with hrun | hrun
    · rwa [hrun]
    · generalize ((Call.scale a).run env d).1 = d' at hrun
      cases hrun with
      | scaled hr hn hrec => exact (resize_seen_iff ht h hr rfl rfl).1 (hkeep _ hr hn hrec)
      | closed hb => cases hb
  · intro hagree r hr hn hrec
    have hv := hagree r.strategyVariant
    rw [scale_run hr, if_neg (not_or.mpr ⟨hn, hrec⟩)] at hv
    exact (resize_seen_iff ht h hr rfl rfl).2 hv

theorem leverage_keepsNotional_iff (env : Env) (hd : d.Consistent) (ht : d.SizesTold) (h : d.Seen)
    (a : LeverageArgs) : ((Call.leverage a).KeepsNotional d →
      ((Call.leverage a).run env d).1.Seen) ∧
      ((∀ v, ((Call.leverage a).run env d).1.ReadersAgree v) →
        (Call.leverage a).KeepsNotional d) := by
  constructor
  · intro hkeep
    rcases (Call.leverage a).run_cases env hd.minted with hrun | hrun
    · rwa [hrun]
    · have hr : ∃ r, d.openTrade? a.tradeId = some r := by
        generalize ((Call.leverage a).run env d).1 = d' at hrun
        cases hrun with
        | leveraged hr => exact ⟨_, hr⟩
        | closed hb => cases hb
      obtain ⟨r, hr⟩ := hr
      rw [leverage_run hr]
      split
      · exact h
      · next hn =>
        obtain ⟨hn, hrec⟩ := not_or.mp hn
        exact (resize_seen_iff ht h hr rfl rfl).1 (hkeep r hr hn hrec)
  · intro hagree r hr hn hrec
    have hv := hagree r.strategyVariant
    rw [leverage_run hr, if_neg (not_or.mpr ⟨hn, hrec⟩)] at hv
    exact (resize_seen_iff ht h hr rfl rfl).2 hv

/-- The step lemma: a call keeps the notional exactly if the readers agree after it. -/
theorem Call.keepsNotional_iff (env : Env) (hd : d.Consistent) (ht : d.SizesTold) (h : d.Seen)
    (c : Call) :
    (c.KeepsNotional d → (c.run env d).1.Seen) ∧
      ((∀ v, (c.run env d).1.ReadersAgree v) → c.KeepsNotional d) := by
  have hother : ((∀ a, c ≠ .openTrade a) ∧ (∀ a, c ≠ .scale a) ∧ ∀ a, c ≠ .leverage a) →
      (c.run env d).1.Seen := by
    intro hc
    rcases c.run_cases env hd.minted with hrun | hrun
    · rwa [hrun]
    · exact h.effect hd hrun hc
  cases c with
  | openTrade a => exact openTrade_keepsNotional_iff env hd h a
  | scale a => exact scale_keepsNotional_iff env hd ht h a
  | leverage a => exact leverage_keepsNotional_iff env hd ht h a
  | flip a => exact ⟨fun _ => hother ⟨by simp, by simp, by simp⟩, fun _ => trivial⟩
  | closePerp a => exact ⟨fun _ => hother ⟨by simp, by simp, by simp⟩, fun _ => trivial⟩
  | closeCarry a => exact ⟨fun _ => hother ⟨by simp, by simp, by simp⟩, fun _ => trivial⟩
  | persistClose a => exact ⟨fun _ => hother ⟨by simp, by simp, by simp⟩, fun _ => trivial⟩

end steps

/-! ## Every run -/

theorem readersAgree_runs_iff (env : Env) {d : Ledger} {calls : List Call} (hd : d.Consistent)
    (ht : d.SizesTold) (h : d.Seen) :
    (∀ n v, (runAll env (calls.take n) d).ReadersAgree v) ↔
      ∀ n (c : Call), calls[n]? = some c → c.KeepsNotional (runAll env (calls.take n) d) := by
  refine Runs.all_good_iff (fun _ d => d.Consistent ∧ d.SizesTold ∧ d.Seen)
    (fun d => ∀ v, d.ReadersAgree v) Call.KeepsNotional ?_ ?_ ?_ ⟨hd, ht, h⟩
  · rintro _ d ⟨hd, ht, h⟩
    exact h.readersAgree hd ht
  · rintro c _ d ⟨hd, ht, h⟩ hkeep
    exact ⟨hd.run c, ht.run hd c, (c.keepsNotional_iff env hd ht h).1 hkeep⟩
  · rintro c _ d ⟨hd, ht, h⟩
    exact (c.keepsNotional_iff env hd ht h).2

/-- On the ledgers of a run from the empty one all exposure readers agree exactly if every call of
the run keeps the notional. -/
theorem exposure_readers_agree_iff (env : Env) (calls : List Call) :
    (∀ n v, (runAll env (calls.take n) empty).ReadersAgree v) ↔
      ∀ n (c : Call), calls[n]? = some c → c.KeepsNotional (runAll env (calls.take n) empty) :=
  readersAgree_runs_iff env .empty .empty .empty

/-- A trade of 1 BTC at 1000 that is scaled up to 2 BTC at 1000. -/
def scaledUp : List Call := [
  .openTrade {
    variantId := "V", sleeveName := "ADX", asset := "BTC", direction := .long, entryPrice := 1000,
    allocationPct := 10, reasonRegime := none, signalTimeIso := some "k", now := 0 },
  .scale { tradeId := "SJ-0001", newQty := 2, price := 1000, now := 5_000_000 }]

/-- After the resize one reader still tells the size at the entry. -/
theorem exposure_readers_drift :
    ¬ ∀ env calls v, (runAll env calls empty).ReadersAgree v := by
  intro h
  exact absurd (h quietEnv scaledUp "V").current (by decide +kernel)

end P300
