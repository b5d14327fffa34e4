import P300.Bots.R4Budget
import P300.Bots.SqueezeTick
import P300.Ledger.Closes
import P300.Lib.Trace

/-!
# Runs of the short squeeze bot

The process ticks its variants, and may be restarted: the cooldowns are in its memory only. Other
processes open, resize and flip trades of other variants, and close any trade. Through all that a
variant has one trade open at most, at the levels and the size of its bar.
-/

namespace P300

open Ledger

/-! ## Closes -/

section closes

variable {v : String} {d : Ledger} {inputs : SqueezeInputs}

theorem onlyCloses_squeezeClose (hd : d.Consistent) (env : Env) (now : Time) (tid : String)
    (price : ℚ) : d.OnlyCloses v (squeezeClose env now tid price d).2 := by
  have hrun : d.OnlyCloses v ((Call.closePerp {
      tradeId := tid, exitPrice := price, costBpRt := 10, slippageBpRt := 0, now }).run env d).1 :=
    .run hd _ fun h => by cases h
  rw [squeezeClose]
  split
  · next heq => rwa [heq] at hrun
  · next heq => rwa [heq] at hrun

theorem onlyCloses_sweepLoop (hd : d.Consistent) (price : ℚ) (notes : Dict String SqueezeNotes)
    (rows : List TradeRow) (closed : List (String × String)) :
    d.OnlyCloses v (sweepLoop inputs price notes rows closed d).2 := by
  induction rows generalizing closed d with
  | nil => exact .refl v hd
  | cons r rows ih =>
    rw [sweepLoop]
    split
    · exact ih hd closed
    split
    · exact ih hd closed
    · next reason _ =>
      have hclose := onlyCloses_squeezeClose (v := v) hd inputs.env inputs.sweepCloseNow r.id price
      split
      · next heq =>
        rw [heq] at hclose
        exact hclose.trans (ih hclose.consistent _)
      · next heq =>
        rw [heq] at hclose
        split
        · exact hclose.trans (ih hclose.consistent closed)
        · exact hclose

/-- The sweep closes, and leaves the rest of the bot as it is. -/
structure Closing (bot bot' : SqueezeBot) : Prop where
  ledger : ∀ v, bot.ledger.OnlyCloses v bot'.ledger
  notes : bot'.notes = bot.notes
  lastTrigger : bot'.memory.lastTrigger = bot.memory.lastTrigger

theorem Closing.refl {bot : SqueezeBot} (hd : bot.ledger.Consistent) : Closing bot bot :=
  ⟨fun v => .refl v hd, rfl, rfl⟩

theorem Closing.trans {bot bot' bot'' : SqueezeBot} (h : Closing bot bot')
    (h' : Closing bot' bot'') : Closing bot bot'' :=
  ⟨fun v => (h.ledger v).trans (h'.ledger v), h'.notes.trans h.notes,
    h'.lastTrigger.trans h.lastTrigger⟩

variable {bot : SqueezeBot}

theorem closing_sweep (hd : bot.ledger.Consistent) (variantId : String) :
    Closing bot (sweepOpenPositions variantId inputs bot).2 := by
  rw [sweepOpenPositions]
  split
  · exact .refl hd
  · exact .refl hd
  next trades _ _ =>
  split
  · exact .refl hd
  · exact .refl hd
  next price _ =>
  have hloop (v : String) :
      bot.ledger.OnlyCloses v (sweepLoop inputs price bot.notes trades [] bot.ledger).2 :=
    onlyCloses_sweepLoop hd price bot.notes trades []
  split
  · next heq =>
    rw [heq] at hloop
    exact ⟨hloop, rfl, rfl⟩
  · next heq =>
    rw [heq] at hloop
    exact ⟨hloop, rfl, rfl⟩

theorem closing_backstop (hd : bot.ledger.Consistent) (variant : SqueezeVariant)
    (out : SqueezeOut) : Closing bot (squeezeBackstop variant inputs out bot).2 := by
  refine ⟨fun v => ?_, rfl, rfl⟩
  refine BackstopState.keeps_foldl (P := bot.ledger.OnlyCloses v) (fun _ _ h => h) ?_ (.refl v hd) _
  intro strategy close hclose tid price reason world h
  rw [squeezeBackstopEnv] at hclose
  dsimp only at hclose
  split at hclose
  · obtain rfl := Option.some.inj hclose
    exact h.trans (onlyCloses_squeezeClose h.consistent inputs.env inputs.closeNow tid price)
  · cases hclose

end closes

/-! ## Decisions -/

section decisions

variable {data : SqueezeData} {variantId : String} {now : Time} {m m' : SqueezeMemory}

theorem lastTrigger_today (h : m.today data now = .ok m') : m'.lastTrigger = m.lastTrigger := by
  rw [SqueezeMemory.today] at h
  split at h
  · cases h
    rfl
  · rw [refreshDistributions] at h
    obtain ⟨bars, -, h⟩ := of_bind_ok h
    cases h
    rfl

theorem lastTrigger_getMacroContext {summary : Option MacroSummary}
    (h : getMacroContext data now m = .ok (summary, m')) : m'.lastTrigger = m.lastTrigger := by
  rw [getMacroContext] at h
  split at h
  · cases h
    rfl
  split at h
  · cases h
    rfl
  · obtain ⟨raw, -, h⟩ := of_bind_ok h
    dsimp only at h
    split at h
    · cases h
      rfl
    · cases h
      rfl

/-- The evaluation touches what is read once a day only. -/
theorem lastTrigger_evaluateTrigger :
    (evaluateTrigger data variantId now m).2.lastTrigger = m.lastTrigger := by
  rw [evaluateTrigger]
  split
  · rfl
  split
  · rfl
  next m₁ htoday =>
  have htoday := lastTrigger_today htoday
  split
  · exact htoday
  · exact htoday
  split
  · exact htoday
  · next hmacro => exact (lastTrigger_getMacroContext hmacro).trans htoday
  · next hmacro =>
    have hmacro := (lastTrigger_getMacroContext hmacro).trans htoday
    split
    · exact hmacro
    · exact hmacro

theorem ts_of_gateBar {bar : SqueezeBar} {priorLow : Option ℚ} {perpDist divergenceDist : List ℚ}
    {fire : SqueezeFire} (h : gateBar bar priorLow perpDist divergenceDist = .ok fire) :
    fire.bar = bar := by
  cases priorLow with
  | none => cases h
  | some priorLow =>
  rw [gateBar] at h
  split at h
  · cases h
  split at h
  · cases h
  split at h
  · cases h
  split at h
  · cases h
  · cases h
    rfl

theorem read_eq_ok {α : Type} {q : SqueezeRead} {a b : α} (h : data.read q a = .ok b) : b = a := by
  rw [SqueezeData.read] at h
  split at h
  · cases h
  · exact (Except.ok.inj h).symm

theorem ts_of_evaluateBar {perpDist divergenceDist : List ℚ} {fire : SqueezeFire}
    (h : evaluateBar data now perpDist divergenceDist = .ok (.ok fire)) :
    fire.bar.ts = timestampS (floor15m now - bar15m) := by
  rw [evaluateBar] at h
  obtain ⟨latest, hlatest, h⟩ := of_bind_ok h
  have hlatest := read_eq_ok hlatest
  split at h
  · cases h
  next bar =>
  split at h
  · cases h
  obtain ⟨priorLow, -, h⟩ := of_bind_ok h
  rw [ts_of_gateBar (Except.ok.inj h)]
  obtain ⟨p, -, rfl⟩ := Option.map_eq_some_iff.mp hlatest.symm
  rfl

/-- A trigger is out of the cooldown, and of the latest closed bar. -/
theorem evaluateTrigger_eq_fire {fire : SqueezeFire}
    (h : (evaluateTrigger data variantId now m).1 = .ok (.ok fire)) :
    ¬ m.Cooling variantId now ∧ fire.bar.ts = timestampS (floor15m now - bar15m) := by
  rw [evaluateTrigger] at h
  split at h
  · cases h
  next hcool =>
  refine ⟨hcool, ?_⟩
  split at h
  · cases h
  split at h
  · cases h
  · cases h
  split at h
  · cases h
  · cases h
  split at h
  · cases h
  · exact ts_of_evaluateBar h

end decisions

/-! ## Intents -/

/-- The notional of a variant on a trade with these levels. -/
def SqueezeVariant.notional (x : SqueezeVariant) (entry stop : ℚ) : ℚ :=
  if x.useStop then
    min (x.capitalUsdt * (squeezeRiskPct / 100) / ((entry - stop) / entry))
      (squeezeNotionalMaxX * x.capitalUsdt)
  else x.capitalUsdt

/-- The notes that the sweep of the variant reads. -/
def SqueezeVariant.notes (x : SqueezeVariant) (stop target : ℚ) (timeStop : Time) :
    SqueezeNotes where
  stopPrice := if x.useStop then some stop else none
  targetPrice := if x.useStop then some target else none
  timeStop := some timeStop

/-- An intent of the variant at the levels of the bar before `now`. -/
structure SqueezeIntent.Leveled (x : SqueezeVariant) (now : Time) (i : SqueezeIntent) : Prop where
  ts : i.reason.fire.bar.ts = timestampS (floor15m now - bar15m)
  stop : i.reason.referenceStopPrice = i.reason.fire.bar.low * (1 - stopBuffer)
  entry : i.reason.entryPrice = i.reason.fire.bar.close
  risk : i.reason.referenceStopPrice < i.reason.entryPrice
  target : i.reason.referenceTargetPrice = i.reason.entryPrice +
    squeezeTpR * (i.reason.entryPrice - i.reason.referenceStopPrice)
  exit : i.scheduledExitDt = now + squeezeTimeStop
  notes : i.reason.notes =
    x.notes i.reason.referenceStopPrice i.reason.referenceTargetPrice i.scheduledExitDt

theorem leveled_squeezeIntent {x : SqueezeVariant} {now : Time} {fire : SqueezeFire}
    {i : SqueezeIntent} (hts : fire.bar.ts = timestampS (floor15m now - bar15m))
    (h : squeezeIntent x.useStop now fire = some i) : i.Leveled x now := by
  rw [squeezeIntent] at h
  dsimp only at h
  split at h
  · cases h
  · next hrisk =>
    cases h
    exact ⟨hts, rfl, rfl, sub_pos.mp (not_le.mp hrisk), rfl, rfl, rfl⟩

/-- The size that the runner gives to the intent. -/
structure SqueezeIntent.Fits (x : SqueezeVariant) (now : Time) (i : SqueezeIntent) : Prop
    extends i.Leveled x now where
  alloc : i.allocationPct = 100
  capital : x.capitalUsdt ≠ 0
  size : x.capitalUsdt * i.leverage =
    x.notional i.reason.entryPrice i.reason.referenceStopPrice

theorem fixedR_eq_ok {entry stop capital riskPct notionalMaxX : ℚ} {sized : Sized}
    (h : sizeIntentFixedR entry stop capital riskPct notionalMaxX = .ok sized) :
    capital ≠ 0 ∧ 0 < |entry - stop| / entry ∧
    sized.notional = min (capital * (riskPct / 100) / (|entry - stop| / entry))
      (notionalMaxX * capital) ∧ capital * sized.leverage = sized.notional := by
  rw [sizeIntentFixedR] at h
  dsimp only at h
  split at h
  · cases h
  split at h
  · cases h
  next hstop =>
  split at h
  · cases h
  next hcapital =>
  cases h
  exact ⟨hcapital, not_le.mp hstop, rfl, mul_div_cancel₀ _ hcapital⟩

/-- The sized intent. -/
theorem SqueezeIntent.Leveled.fits {x : SqueezeVariant} {now : Time} {i : SqueezeIntent}
    (H : i.Leveled x now) {sized : Sized} (h : sizeSqueeze x i.reason = .ok sized) :
    SqueezeIntent.Fits x now { i with allocationPct := 100, leverage := sized.leverage } := by
  rw [sizeSqueeze] at h
  dsimp only at h
  rw [H.notes, SqueezeVariant.notes] at h
  have habs : |i.reason.entryPrice - i.reason.referenceStopPrice| =
      i.reason.entryPrice - i.reason.referenceStopPrice := abs_of_pos (sub_pos.mpr H.risk)
  split at h
  · next hstop =>
    obtain ⟨hcapital, -, hnotional, hsize⟩ := fixedR_eq_ok h
    refine ⟨⟨H.ts, H.stop, H.entry, H.risk, H.target, H.exit, H.notes⟩, rfl, hcapital, ?_⟩
    rw [SqueezeVariant.notional, if_pos hstop, hsize, hnotional, habs]
  · next hstop =>
    split at h
    · cases h
    next hzero =>
    cases h
    have hcapital : x.capitalUsdt ≠ 0 := fun h => hzero (.inr h)
    refine ⟨⟨H.ts, H.stop, H.entry, H.risk, H.target, H.exit, H.notes⟩, rfl, hcapital, ?_⟩
    rw [SqueezeVariant.notional, if_neg hstop, nostopNotionalX, mul_one]
    exact mul_div_cancel₀ _ hcapital

/-! ## Ticks -/

section ticks

variable {variant : SqueezeVariant} {inputs : SqueezeInputs} {bot bot' : SqueezeBot}

theorem closing_decideEntry (hd : bot.ledger.Consistent) :
    Closing bot (decideEntry variant inputs bot).2 := by
  have hmemory : Closing bot { bot with
      memory := (evaluateTrigger inputs.data variant.id inputs.now bot.memory).2 } :=
    ⟨fun v => .refl v hd, rfl, lastTrigger_evaluateTrigger⟩
  rw [decideEntry]
  split
  · exact .refl hd
  split
  · exact .refl hd
  · exact .refl hd
  dsimp only
  split
  · exact hmemory
  · exact hmemory
  split
  · exact hmemory
  · exact hmemory

theorem read_eq_ok' {α : Type} {q : SqueezeRead} {a b : α}
    (h : inputs.data.read q a = .ok b) : a = b := (read_eq_ok h).symm

/-- An intent comes out of the cooldown, with no trade of the variant open. -/
theorem decideEntry_eq_some {i : SqueezeIntent} {st : SqueezeStatus}
    (h : (decideEntry variant inputs bot).1 = .ok (some i, st)) :
    openSqueezeTrades variant.id bot.ledger = [] ∧
    ¬ bot.memory.Cooling variant.id inputs.now ∧ i.Leveled variant inputs.now := by
  rw [decideEntry] at h
  split at h
  · cases h
  split at h
  · cases h
  · cases h
  next hread =>
  dsimp only at h
  split at h
  · cases h
  · cases h
  next fire hfire =>
  obtain ⟨hcool, hts⟩ := evaluateTrigger_eq_fire hfire
  split at h
  · cases h
  next i' hi =>
  cases h
  exact ⟨read_eq_ok' hread, hcool, leveled_squeezeIntent hts hi⟩

/-- What a tick does to the bot: it closes, and between its closes it may execute one intent. -/
inductive TickEffect (variant : SqueezeVariant) (inputs : SqueezeInputs) (bot bot' : SqueezeBot) :
    Option (SqueezeIntent × String) → Prop
  | quiet : Closing bot bot' → TickEffect variant inputs bot bot' none
  | opened {bot₁ bot₂ : SqueezeBot} {i : SqueezeIntent} {tid : String} : Closing bot bot₁ →
    openSqueezeTrades variant.id bot₁.ledger = [] →
    ¬ bot₁.memory.Cooling variant.id inputs.now → i.Fits variant inputs.now →
    squeezeExecute variant inputs i bot₁ = (.ok tid, bot₂) → Closing bot₂ bot' →
    TickEffect variant inputs bot bot' (some (i, tid))

theorem closing_squeezeExecute {i : SqueezeIntent} {e : TradeError}
    (hd : bot.ledger.Consistent) (h : squeezeExecute variant inputs i bot = (.error e, bot')) :
    bot' = bot := by
  rw [squeezeExecute] at h
  split at h
  · cases h
  · next heq =>
    cases h
    rw [openTrade_raised hd.minted heq fun _ h => by cases h]
  · next hid _ heq =>
    cases h
    rw [openTrade_raised hd.minted heq fun tid h => hid tid h]

theorem squeezeExecute_ledger (i : SqueezeIntent) : (squeezeExecute variant inputs i bot).2.ledger =
    ((Call.openTrade (i.openArgs variant inputs)).run inputs.env bot.ledger).1 := by
  rw [squeezeExecute]
  split
  · next heq => rw [heq]
  · next heq => rw [heq]
  · next heq => rw [heq]

theorem squeezeEntry_effect {i : SqueezeIntent} {out : SqueezeOut} (hd : bot.ledger.Consistent)
    (hopen : openSqueezeTrades variant.id bot.ledger = [])
    (hcool : ¬ bot.memory.Cooling variant.id inputs.now) (H : i.Leveled variant inputs.now)
    (hout : out.opened = none) :
    TickEffect variant inputs bot (squeezeEntry variant inputs i out bot).2
      (squeezeEntry variant inputs i out bot).1.opened := by
  have hquiet {out' : SqueezeOut} (h : out'.opened = none) :
      TickEffect variant inputs bot bot out'.opened := h ▸ .quiet (.refl hd)
  rw [squeezeEntry]
  dsimp only
  split
  · exact hquiet hout
  · exact hquiet hout
  split
  · exact hquiet hout
  next sized hsized =>
  split
  · next heq =>
    rw [closing_squeezeExecute hd heq]
    exact hquiet hout
  · next tid bot₂ heq =>
    refine .opened (.refl hd) hopen hcool (H.fits hsized) heq (.refl ?_)
    have hledger := @squeezeExecute_ledger variant inputs bot
      { i with allocationPct := 100, leverage := sized.leverage }
    rw [heq] at hledger
    rw [hledger]
    exact hd.run _

theorem TickEffect.after {o : Option (SqueezeIntent × String)} {bot'' : SqueezeBot}
    (h : TickEffect variant inputs bot bot' o) (hc : Closing bot' bot'') :
    TickEffect variant inputs bot bot'' o := by
  cases h with
  | quiet h => exact .quiet (h.trans hc)
  | opened h₁ hopen hcool hfits hexec h₂ => exact .opened h₁ hopen hcool hfits hexec (h₂.trans hc)

theorem TickEffect.before {o : Option (SqueezeIntent × String)} {bot₀ : SqueezeBot}
    (hc : Closing bot₀ bot) (h : TickEffect variant inputs bot bot' o) :
    TickEffect variant inputs bot₀ bot' o := by
  cases h with
  | quiet h => exact .quiet (hc.trans h)
  | opened h₁ hopen hcool hfits hexec h₂ => exact .opened (hc.trans h₁) hopen hcool hfits hexec h₂

theorem opened_squeezeBackstop (out : SqueezeOut) :
    (squeezeBackstop variant inputs out bot).1.opened = out.opened := by
  rw [squeezeBackstop]
  dsimp only
  split <;> rfl

theorem ledger_decideEntry : (decideEntry variant inputs bot).2.ledger = bot.ledger := by
  rw [decideEntry]
  split
  · rfl
  split
  · rfl
  · rfl
  dsimp only
  split
  · rfl
  · rfl
  split <;> rfl

theorem TickEffect.consistent {o : Option (SqueezeIntent × String)}
    (h : TickEffect variant inputs bot bot' o) : bot'.ledger.Consistent := by
  cases h with
  | quiet h => exact (h.ledger variant.id).consistent
  | opened _ _ _ _ _ h => exact (h.ledger variant.id).consistent

theorem closing_squeezeDecide (hd : bot.ledger.Consistent) :
    Closing bot (squeezeDecide variant inputs bot).2 := by
  have hsweep := @closing_sweep inputs bot hd variant.id
  rw [squeezeDecide]
  split
  · next heq => rwa [heq] at hsweep
  · next heq =>
    rw [heq] at hsweep
    exact hsweep.trans (closing_decideEntry (hsweep.ledger variant.id).consistent)

theorem cooling_congr {m m' : SqueezeMemory} (h : m'.lastTrigger = m.lastTrigger)
    (variantId : String) (now : Time) : m'.Cooling variantId now ↔ m.Cooling variantId now := by
  rw [SqueezeMemory.Cooling, SqueezeMemory.Cooling, h]

theorem squeezeDecide_eq_some {i : SqueezeIntent} {st : SqueezeStatus}
    (hd : bot.ledger.Consistent) (h : squeezeDecide variant inputs bot = (.ok (some i, st), bot')) :
    openSqueezeTrades variant.id bot'.ledger = [] ∧
    ¬ bot'.memory.Cooling variant.id inputs.now ∧ i.Leveled variant inputs.now := by
  have hsweep := @closing_sweep inputs bot hd variant.id
  rw [squeezeDecide] at h
  split at h
  · cases h
  · next bot₁ heq =>
    rw [heq] at hsweep
    obtain ⟨hopen, hcool, hi⟩ := decideEntry_eq_some (congrArg Prod.fst h)
    have hentry := @closing_decideEntry variant inputs bot₁ (hsweep.ledger variant.id).consistent
    have hledger := @ledger_decideEntry variant inputs bot₁
    rw [h] at hentry hledger
    rw [hledger, cooling_congr hentry.lastTrigger]
    exact ⟨hopen, hcool, hi⟩

theorem squeezeEnter_effect (hd : bot.ledger.Consistent) :
    TickEffect variant inputs bot (squeezeEnter variant inputs bot).2
      (squeezeEnter variant inputs bot).1.opened := by
  have hdecide := @closing_squeezeDecide variant inputs bot hd
  rw [squeezeEnter]
  split
  · next heq =>
    rw [heq] at hdecide
    exact .quiet hdecide
  · next intent st _ heq =>
    rw [heq] at hdecide
    cases intent with
    | none => exact .quiet hdecide
    | some i =>
      obtain ⟨hopen, hcool, hi⟩ := squeezeDecide_eq_some hd heq
      exact .before hdecide
        (squeezeEntry_effect (hdecide.ledger variant.id).consistent hopen hcool hi rfl)

/-- A tick closes, and executes an intent at most. -/
theorem squeezeTick_effect (hd : bot.ledger.Consistent) :
    TickEffect variant inputs bot (squeezeTick variant inputs bot).2
      (squeezeTick variant inputs bot).1.opened := by
  rw [squeezeTick]
  split
  · exact .quiet (.refl hd)
  · exact .quiet (.refl hd)
  dsimp only
  rw [opened_squeezeBackstop]
  have henter := @squeezeEnter_effect variant inputs bot hd
  exact henter.after (closing_backstop henter.consistent variant _)

end ticks

end P300
