import P300.Bots.SqueezeRun

/-!
# The short squeeze bot over its runs

The process ticks its variants in any order and may be restarted: the cooldowns are in its memory
only. Other processes open, resize and flip trades of other variants, and close any trade. Through
all that a variant has one trade open at most, and each trade is at the levels and of the size of
its bar.
-/

namespace P300

open Ledger

/-- What `execute` has opened, or found under the same key. -/
structure SqueezeOpened where
  process : ℕ
  decidedAt : Time
  firedAt : Time
  intent : SqueezeIntent
  args : OpenArgs
  tid : String

structure SqueezeSys where
  bot : SqueezeBot
  /-- How often the process was restarted. -/
  process : ℕ := 0
  clock : Time
  log : List SqueezeOpened := []

inductive SqueezeAct
  | tick (variant : SqueezeVariant) (inputs : SqueezeInputs)
  | restart
  /-- A call of another process. -/
  | other (env : Env) (c : Call)

namespace SqueezeSys

variable (variants : List SqueezeVariant) (s : SqueezeSys)

/-- The entry of the log for an execution. -/
def opened (variant : SqueezeVariant) (inputs : SqueezeInputs) (i : SqueezeIntent) (tid : String) :
    SqueezeOpened where
  process := s.process
  decidedAt := inputs.now
  firedAt := inputs.firedNow
  intent := i
  args := i.openArgs variant inputs
  tid := tid

/-- After a tick. -/
def tick (variant : SqueezeVariant) (inputs : SqueezeInputs) : SqueezeSys :=
  let (out, bot) := squeezeTick variant inputs s.bot
  { s with
    bot
    clock := inputs.closeNow
    log := s.log ++ out.opened.toList.map fun (i, tid) => s.opened variant inputs i tid }

def step : SqueezeAct → Option SqueezeSys
  | .tick variant inputs =>
    if variant ∈ variants ∧ s.clock ≤ inputs.sweepNow ∧ inputs.Ordered then
      some (s.tick variant inputs)
    else none
  | .restart => some { s with bot := { s.bot with memory := {} }, process := s.process + 1 }
  | .other env c =>
    if c.variantOf s.bot.ledger ∉ variants.map fun x => some x.id then
      some { s with bot := { s.bot with ledger := (c.run env s.bot.ledger).1 } }
    else none

def run (acts : List SqueezeAct) : Option SqueezeSys := Trace.run (step variants) s acts

/-- The process is started on a ledger. -/
def start (d : Ledger) (clock : Time) : SqueezeSys := { bot := { ledger := d }, clock }

end SqueezeSys

/-! ## Trades -/

/-- The row of the trade that an entry of the log has opened, open as it was opened or closed. -/
structure SqueezeOpened.Row (e : SqueezeOpened) (d : Ledger) (r : TradeRow) : Prop where
  entry : r.toTradeEntry = (e.args.row e.tid).toTradeEntry
  live : r.status = .open_ → r = e.args.row e.tid ∧
    d.eventsOf r.id = [(e.args.event e.tid).row e.args.now 0]

/-- An entry of the log of the variant `x`. -/
structure SqueezeOpened.Of (e : SqueezeOpened) (x : SqueezeVariant) : Prop where
  fits : e.intent.Fits x e.decidedAt
  args : ∃ inputs : SqueezeInputs, inputs.openNow ≤ e.firedAt ∧ e.decidedAt ≤ inputs.openNow ∧
    e.args = e.intent.openArgs x inputs

namespace SqueezeSys

/-- The entries of the variant `x`, and what the process remembers of them. -/
structure Logged (x : SqueezeVariant) (s : SqueezeSys) : Prop where
  entries : ∀ e ∈ s.log, e.args.variantId = x.id → e.Of x
  spaced : s.log.Pairwise fun e e' => e.args.variantId = x.id → e'.args.variantId = x.id →
    e.process = e'.process → e.firedAt + squeezeCooldown ≤ e'.decidedAt
  memory : ∀ e ∈ s.log, e.args.variantId = x.id → e.process = s.process →
    ∃ t ∈ s.bot.memory.lastTrigger.get? x.id, e.firedAt ≤ t
  process : ∀ e ∈ s.log, e.process ≤ s.process
  clock : ∀ e ∈ s.log, e.firedAt ≤ s.clock

/-- The trades of the variant `x`. -/
structure Held (x : SqueezeVariant) (s : SqueezeSys) : Prop where
  consistent : s.bot.ledger.Consistent
  one : ∀ r ∈ s.bot.ledger.openOf x.id, ∀ r' ∈ s.bot.ledger.openOf x.id, r = r'
  trades : ∀ r ∈ s.bot.ledger.trades, r.strategyVariant = x.id →
    ∃ e ∈ s.log, e.args.variantId = x.id ∧ e.Row s.bot.ledger r ∧
      s.bot.notes.get? r.id = some e.intent.reason.notes
  keyed : ∀ e ∈ s.log, s.bot.ledger.Keyed e.args.uniqueKey e.tid

variable {x y : SqueezeVariant} {s s' : SqueezeSys} {inputs : SqueezeInputs} {i : SqueezeIntent}
  {tid : String} {bot : SqueezeBot} {clock : Time}

/-! ## Closes and restarts -/

theorem Logged.keeps (H : s.Logged x) (hclock : s.clock ≤ clock)
    (hmemory : bot.memory.lastTrigger.get? x.id = s.bot.memory.lastTrigger.get? x.id) :
    Logged x { s with bot, clock } where
  entries := H.entries
  spaced := H.spaced
  memory e he hex hp := by
    obtain ⟨t, ht, hle⟩ := H.memory e he hex hp
    exact ⟨t, hmemory ▸ ht, hle⟩
  process := H.process
  clock e he := (H.clock e he).trans hclock

theorem Logged.restart (H : s.Logged x) : Logged x
    { s with bot := { s.bot with memory := {} }, process := s.process + 1 } where
  entries := H.entries
  spaced := H.spaced
  memory e he _ hp := absurd (H.process e he) (by rw [hp]; exact Nat.not_succ_le_self _)
  process e he := (H.process e he).trans (Nat.le_succ _)
  clock := H.clock

/-- What holds is kept while trades of the variant are closed only. -/
theorem Held.keeps (H : s.Held x) (hledger : s.bot.ledger.OnlyCloses x.id bot.ledger)
    (hnotes : ∀ tid ∈ s.bot.ledger.trades.map (·.id), bot.notes.get? tid = s.bot.notes.get? tid) :
    Held x { s with bot, clock } where
  consistent := hledger.consistent
  one r hr r' hr' := H.one r (hledger.openOf_subset hr).1 r' (hledger.openOf_subset hr').1
  trades r hr hv := by
    rcases hledger.rows hr hv with ⟨hr₀, hev⟩ | ⟨hstatus, r₀, hr₀, hentry⟩
    · obtain ⟨e, he, hex, hrow, hn⟩ := H.trades r hr₀ hv
      exact ⟨e, he, hex, ⟨hrow.entry, fun ho => ⟨(hrow.live ho).1, hev.trans (hrow.live ho).2⟩⟩,
        (hnotes r.id (List.mem_map_of_mem hr₀)).trans hn⟩
    · have hid : r₀.id = r.id := congrArg TradeEntry.id hentry
      obtain ⟨e, he, hex, hrow, hn⟩ := H.trades r₀ hr₀
        ((congrArg TradeEntry.strategyVariant hentry).trans hv)
      refine ⟨e, he, hex, ⟨hentry.symm.trans hrow.entry, fun ho => absurd ho hstatus⟩, ?_⟩
      rw [← hid]
      exact (hnotes r₀.id (List.mem_map_of_mem hr₀)).trans hn
  keyed e he := (H.keyed e he).grows hledger.grows

/-- One more entry in the log, of a key that is there. -/
theorem Held.snoc (H : s.Held x) {e : SqueezeOpened}
    (hkeyed : s.bot.ledger.Keyed e.args.uniqueKey e.tid) :
    Held x { s with log := s.log ++ [e] } where
  consistent := H.consistent
  one := H.one
  trades r hr hv := by
    obtain ⟨e₀, he₀, h⟩ := H.trades r hr hv
    exact ⟨e₀, List.mem_append_left _ he₀, h⟩
  keyed e' he' := by
    rcases List.mem_append.mp he' with he' | he'
    · exact H.keyed e' he'
    · rw [List.mem_singleton.mp he']
      exact hkeyed

/-! ## Entries -/

/-- What `execute` does when it returns an id. -/
theorem squeezeExecute_eq_ok {variant : SqueezeVariant} {inputs : SqueezeInputs}
    {i : SqueezeIntent} {bot bot' : SqueezeBot} {tid : String}
    (h : squeezeExecute variant inputs i bot = (.ok tid, bot')) : ∃ ledger,
      (Call.openTrade (i.openArgs variant inputs)).run inputs.env bot.ledger = (ledger, .id tid) ∧
      bot' = {
        ledger
        notes := if tid ∈ bot.ledger.trades.map (·.id) then bot.notes
          else bot.notes.set tid i.reason.notes
        memory := { bot.memory with
          lastTrigger := bot.memory.lastTrigger.set variant.id inputs.firedNow } } := by
  rw [squeezeExecute] at h
  split at h
  · next ledger _ heq =>
    cases h
    exact ⟨ledger, heq, rfl⟩
  · cases h
  · cases h

theorem keyed_execute (hd : s.bot.ledger.Consistent) {ledger : Ledger}
    (hrun : (Call.openTrade (i.openArgs y inputs)).run inputs.env s.bot.ledger =
      (ledger, .id tid)) :
    s.bot.ledger.Grows ledger ∧ ledger.Keyed (i.openArgs y inputs).uniqueKey tid := by
  have hgrows : s.bot.ledger.Grows
      ((Call.openTrade (i.openArgs y inputs)).run inputs.env s.bot.ledger).1 := hd.grows _
  have hid : ((openPaperTrade (i.openArgs y inputs)).run s.bot.ledger).2 = .id tid :=
    congrArg Prod.snd hrun
  have hkeyed := openPaperTrade_keyed hd.minted hid
  rw [hrun] at hgrows
  rw [← Call.prog, ← Call.run, hrun] at hkeyed
  exact ⟨hgrows, hkeyed⟩

/-- The log after an execution. -/
theorem Logged.executed (H : s.Logged x) (hxy : y.id = x.id → y = x)
    (hcool : ¬ s.bot.memory.Cooling y.id inputs.now) (hfits : i.Fits y inputs.now)
    (hexec : squeezeExecute y inputs i s.bot = (.ok tid, bot)) (hclock : s.clock ≤ inputs.firedNow)
    (hopen : inputs.now ≤ inputs.openNow ∧ inputs.openNow ≤ inputs.firedNow) :
    Logged x { s with
      bot, clock := inputs.firedNow, log := s.log ++ [s.opened y inputs i tid] } := by
  obtain ⟨ledger, -, rfl⟩ := squeezeExecute_eq_ok hexec
  refine ⟨fun e he hex => ?_, ?_, fun e he hex hp => ?_, fun e he => ?_, fun e he => ?_⟩
  · rcases List.mem_append.mp he with he | he
    · exact H.entries e he hex
    · obtain rfl := List.mem_singleton.mp he
      obtain rfl := hxy hex
      exact ⟨hfits, inputs, hopen.2, hopen.1, rfl⟩
  · refine List.pairwise_append.mpr ⟨H.spaced, List.pairwise_singleton .., fun e he e' he' => ?_⟩
    obtain rfl := List.mem_singleton.mp he'
    intro hex hyx hp
    -- the memory of the process has the trigger or a later one
    obtain ⟨t, ht, hle⟩ := H.memory e he hex hp
    have hyx : y.id = x.id := hyx
    have hover : ¬ inputs.now - t < squeezeCooldown := fun hlt => hcool ⟨t, hyx ▸ ht, hlt⟩
    have hle' : t + squeezeCooldown ≤ inputs.now := le_sub_iff_add_le'.mp (not_lt.mp hover)
    exact (Int.add_le_add_right hle squeezeCooldown).trans hle'
  · dsimp only
    rw [Dict.get?_set]
    split
    · refine ⟨inputs.firedNow, rfl, ?_⟩
      rcases List.mem_append.mp he with he | he
      · exact (H.clock e he).trans hclock
      · rw [List.mem_singleton.mp he]
        exact le_rfl
    · next hne =>
      rcases List.mem_append.mp he with he | he
      · exact H.memory e he hex hp
      · obtain rfl := List.mem_singleton.mp he
        exact absurd hex (Ne.symm hne)
  · rcases List.mem_append.mp he with he | he
    · exact H.process e he
    · rw [List.mem_singleton.mp he]
      exact le_rfl
  · rcases List.mem_append.mp he with he | he
    · exact (H.clock e he).trans hclock
    · rw [List.mem_singleton.mp he]
      exact le_rfl

theorem strategy_of_row {e : SqueezeOpened} {d : Ledger} {r : TradeRow} (h : e.Of x)
    (hr : e.Row d r) : r.strategy = "SHORT_SQUEEZE" := by
  obtain ⟨inputs, -, -, hargs⟩ := h.args
  rw [show r.strategy = (e.args.row e.tid).strategy from congrArg TradeEntry.strategy hr.entry,
    hargs]
  change "SHORT_SQUEEZE".toUpper = "SHORT_SQUEEZE"
  decide +kernel

/-- Where the guard finds no trade, the variant has none open. -/
theorem Held.openOf_eq_nil (H : s.Held x) (H' : s.Logged x)
    (h : openSqueezeTrades x.id s.bot.ledger = []) : s.bot.ledger.openOf x.id = [] := by
  refine List.eq_nil_iff_forall_not_mem.mpr fun r hr => ?_
  obtain ⟨hmem, hv, -⟩ := mem_openOf.mp hr
  obtain ⟨e, he, hex, hrow, -⟩ := H.trades r hmem hv
  have hr' : r ∈ openSqueezeTrades x.id s.bot.ledger :=
    List.mem_filter.mpr ⟨hr, decide_eq_true (strategy_of_row (H'.entries e he hex) hrow)⟩
  rw [h] at hr'
  cases hr'

/-- The trades after an execution. -/
theorem Held.executed (H : s.Held x) (H' : s.Logged x)
    (hopen : openSqueezeTrades y.id s.bot.ledger = [])
    (hexec : squeezeExecute y inputs i s.bot = (.ok tid, bot)) :
    Held x { s with bot, clock, log := s.log ++ [s.opened y inputs i tid] } := by
  obtain ⟨ledger, hrun, rfl⟩ := squeezeExecute_eq_ok hexec
  have hkeyed := (keyed_execute H.consistent hrun).2
  obtain ⟨hk, rfl⟩ | ⟨hk, htid, hledger⟩ := openTrade_eq_id H.consistent.minted hrun
  · -- the key is there: its trade has its row already
    have hmem : tid ∈ s.bot.ledger.trades.map (·.id) := by
      obtain ⟨r, hr, rfl⟩ := Option.map_eq_some_iff.mp hk
      exact List.mem_map_of_mem (List.mem_of_find?_eq_some hr)
    rw [if_pos hmem]
    have hsnoc : Held x { s with log := s.log ++ [s.opened y inputs i tid] } := H.snoc hkeyed
    exact hsnoc.keeps (.refl x.id H.consistent) fun _ _ => rfl
  · have hu : s.bot.ledger.Unused ((i.openArgs y inputs).row tid) :=
      H.consistent.minted.unused htid (by rintro k ⟨⟩; exact hk)
    have hnew : tid ∉ s.bot.ledger.trades.map (·.id) := hu.id
    have hconsistent : ledger.Consistent := by
      have h : ((Call.openTrade (i.openArgs y inputs)).run inputs.env s.bot.ledger).1.Consistent :=
        H.consistent.run _
      rwa [hrun] at h
    have htrades : ledger.trades = s.bot.ledger.trades ++ [(i.openArgs y inputs).row tid] :=
      hledger ▸ hu.spawn_trades
    have hevents (t : String) : ledger.eventsOf t =
        if tid = t then [((i.openArgs y inputs).event tid).row inputs.openNow 0]
        else s.bot.ledger.eventsOf t :=
      hledger ▸ hu.eventsOf_spawn rfl t
    have hold (r : TradeRow) (hr : r ∈ ledger.openOf x.id) :
        r ∈ s.bot.ledger.openOf x.id ∨ r = (i.openArgs y inputs).row tid ∧ y.id = x.id := by
      obtain ⟨hmem, hv, ho⟩ := mem_openOf.mp hr
      rw [htrades, List.mem_append, List.mem_singleton] at hmem
      rcases hmem with hmem | rfl
      · exact .inl (mem_openOf.mpr ⟨hmem, hv, ho⟩)
      · exact .inr ⟨rfl, hv⟩
    have hnil (hyx : y.id = x.id) : s.bot.ledger.openOf x.id = [] :=
      H.openOf_eq_nil H' (hyx ▸ hopen)
    rw [if_neg hnew]
    refine ⟨hconsistent, fun r hr r' hr' => ?_, fun r hr hv => ?_, fun e he => ?_⟩
    · rcases hold r hr with hr | ⟨rfl, hyx⟩
      · rcases hold r' hr' with hr' | ⟨-, hyx⟩
        · exact H.one r hr r' hr'
        · rw [hnil hyx] at hr
          cases hr
      · rcases hold r' hr' with hr' | ⟨rfl, -⟩
        · rw [hnil hyx] at hr'
          cases hr'
        · rfl
    · have hr : r ∈ ledger.trades := hr
      rw [htrades, List.mem_append, List.mem_singleton] at hr
      rcases hr with hr | rfl
      · have hne : tid ≠ r.id := fun h => hnew (h ▸ List.mem_map_of_mem hr)
        obtain ⟨e, he, hex, hrow, hn⟩ := H.trades r hr hv
        refine ⟨e, List.mem_append_left _ he, hex, ⟨hrow.entry, fun ho => ?_⟩, ?_⟩
        · exact ⟨(hrow.live ho).1, ((hevents r.id).trans (if_neg hne)).trans (hrow.live ho).2⟩
        · exact (s.bot.notes.get?_set tid r.id _).trans ((if_neg hne.symm).trans hn)
      · refine ⟨_, List.mem_append_right _ (List.mem_singleton_self _), hv, ⟨rfl, fun _ => ?_⟩, ?_⟩
        · exact ⟨rfl, (hevents tid).trans (if_pos rfl)⟩
        · exact (s.bot.notes.get?_set tid tid _).trans (if_pos rfl)
    · rcases List.mem_append.mp he with he | he
      · have hgrows := (keyed_execute H.consistent hrun).1
        exact (H.keyed e he).grows hgrows
      · rw [List.mem_singleton.mp he]
        exact hkeyed

/-! ## Steps -/

/-- What holds of the variant `x` in every state. -/
structure Disciplined (x : SqueezeVariant) (s : SqueezeSys) : Prop where
  logged : s.Logged x
  held : s.Held x

theorem Disciplined.closing (H : s.Disciplined x) (h : Closing s.bot bot)
    (hclock : s.clock ≤ clock) : Disciplined x { s with bot, clock } where
  logged := H.logged.keeps hclock (by rw [h.lastTrigger])
  held := H.held.keeps (h.ledger x.id) fun _ _ => by rw [h.notes]

theorem Disciplined.tick (H : s.Disciplined x) (hxy : y.id = x.id → y = x)
    (hclock : s.clock ≤ inputs.sweepNow) (hord : inputs.Ordered) :
    (s.tick y inputs).Disciplined x := by
  obtain ⟨h₁, h₂, h₃, h₄, h₅, h₆⟩ := hord
  have hdecided : s.clock ≤ inputs.now := hclock.trans (h₁.trans h₂)
  have hfired : s.clock ≤ inputs.firedNow := hdecided.trans (h₃.trans h₄)
  have hend : inputs.firedNow ≤ inputs.closeNow := h₅.trans h₆
  have heffect := @squeezeTick_effect y inputs s.bot H.held.consistent
  rw [SqueezeSys.tick]
  generalize squeezeTick y inputs s.bot = p at heffect
  obtain ⟨out, bot⟩ := p
  dsimp only at heffect ⊢
  generalize out.opened = o at heffect
  cases heffect with
  | quiet h =>
    rw [Option.toList_none, List.map_nil, List.append_nil]
    exact H.closing h (hfired.trans hend)
  | @opened bot₁ bot₂ i tid hc₁ hopen hcool hfits hexec hc₂ =>
    have H₁ : Disciplined x { s with bot := bot₁, clock := s.clock } := H.closing hc₁ le_rfl
    have H₂ : Disciplined x { s with
        bot := bot₂, clock := inputs.firedNow, log := s.log ++ [s.opened y inputs i tid] } :=
      ⟨H₁.logged.executed hxy hcool hfits hexec hfired ⟨h₃, h₄⟩,
        H₁.held.executed H₁.logged hopen hexec⟩
    exact H₂.closing hc₂ hend

theorem Disciplined.step {variants : List SqueezeVariant} (hids : (variants.map (·.id)).Nodup)
    (hx : x ∈ variants) (H : s.Disciplined x) {a : SqueezeAct} (h : s.step variants a = some s') :
    s'.Disciplined x := by
  cases a with
  | tick y inputs =>
    rw [SqueezeSys.step] at h
    split at h
    · next hguard =>
      cases h
      exact H.tick (List.inj_on_of_nodup_map hids hguard.1 hx) hguard.2.1 hguard.2.2
    · cases h
  | restart =>
    cases h
    exact ⟨H.logged.restart, ⟨H.held.consistent, H.held.one, H.held.trades, H.held.keyed⟩⟩
  | other env c =>
    rw [SqueezeSys.step] at h
    split at h
    · next hguard =>
      cases h
      have hv : c.variantOf s.bot.ledger ≠ some x.id := fun h =>
        hguard (List.mem_map.mpr ⟨x, hx, h.symm⟩)
      exact ⟨H.logged.keeps le_rfl rfl, H.held.keeps (.run H.held.consistent c hv) fun _ _ => rfl⟩
    · cases h

/-- `tick_all` is one tick after the other. -/
theorem run_tickAll {variants ys : List SqueezeVariant} {inputs : SqueezeVariant → SqueezeInputs}
    (hys : ∀ y ∈ ys, y ∈ variants ∧ s.clock ≤ (inputs y).sweepNow ∧ (inputs y).Ordered)
    (hchain : ys.Pairwise fun y z => (inputs y).closeNow ≤ (inputs z).sweepNow) :
    ∃ s', s.run variants (ys.map fun y => .tick y (inputs y)) = some s' ∧
      s'.bot = (squeezeTickAll inputs ys s.bot).2 := by
  induction ys generalizing s with
  | nil => exact ⟨s, rfl, rfl⟩
  | cons y ys ih =>
    obtain ⟨hy, hys⟩ := List.forall_mem_cons.mp hys
    obtain ⟨hfirst, hchain⟩ := List.pairwise_cons.mp hchain
    have hstep : s.step variants (.tick y (inputs y)) = some (s.tick y (inputs y)) := if_pos hy
    obtain ⟨s', hrun, hbot⟩ := @ih (s.tick y (inputs y))
      (fun z hz => ⟨(hys z hz).1, hfirst z hz, (hys z hz).2.2⟩) hchain
    refine ⟨s', ?_, hbot⟩
    rw [List.map_cons, SqueezeSys.run, Trace.run, List.foldlM_cons, hstep]
    exact hrun

theorem disciplined_start {d : Ledger} (hd : d.Consistent)
    (h : ∀ r ∈ d.trades, r.strategyVariant ≠ x.id) (clock : Time) :
    (start d clock).Disciplined x where
  logged := ⟨fun _ he => (nomatch he), .nil, fun _ he => (nomatch he), fun _ he => (nomatch he),
    fun _ he => (nomatch he)⟩
  held := ⟨hd, fun r hr => absurd (mem_openOf.mp hr).2.1 (h r (mem_openOf.mp hr).1),
    fun r hr hv => absurd hv (h r hr), fun _ he => (nomatch he)⟩

theorem disciplined_run {variants : List SqueezeVariant} (hids : (variants.map (·.id)).Nodup)
    (hx : x ∈ variants) {d : Ledger} (hd : d.Consistent)
    (hnew : ∀ r ∈ d.trades, r.strategyVariant ≠ x.id) {acts : List SqueezeAct}
    (h : (start d clock).run variants acts = some s) : s.Disciplined x :=
  Trace.invariant (fun _ _ _ H ha => H.step hids hx ha) (disciplined_start hd hnew clock) h

end SqueezeSys

/-! ## Trades and their bars -/

/-- `bar_ts_utc` -/
def SqueezeOpened.barTsUtc (e : SqueezeOpened) : String :=
  isoformat (e.intent.reason.fire.bar.ts * 1_000_000)

/-- The trade of an entry of the variant: a long position with its stop below and its target three
times as far above, out after six hours, of the size of the variant. -/
structure SqueezeOpened.Trade (e : SqueezeOpened) (x : SqueezeVariant) (r : TradeRow)
    (n : Option SqueezeNotes) : Prop where
  id : r.id = e.tid
  position : r.asset = "BTC" ∧ r.direction = .long
  exit : r.exitTime = some (e.decidedAt + squeezeTimeStop)
  levels : ∃ entry stop, stop < entry ∧ r.entryPrice = some entry ∧
    r.sizeUsdt = some (x.notional entry stop) ∧
    n = some (x.notes stop (entry + 3 * (entry - stop)) (e.decidedAt + squeezeTimeStop))

section trades

variable {x : SqueezeVariant} {e e' : SqueezeOpened}

theorem sizeUsdt_openArgs_squeeze {i : SqueezeIntent} {now : Time} (H : i.Fits x now)
    (inputs : SqueezeInputs) : (i.openArgs x inputs).sizeUsdt =
      x.notional i.reason.entryPrice i.reason.referenceStopPrice := by
  have hcapital : (i.openArgs x inputs).capital = x.capitalUsdt := if_neg H.capital
  have halloc : (i.openArgs x inputs).allocationPct = 100 := H.alloc
  rw [OpenArgs.sizeUsdt, hcapital, halloc, div_self (by norm_num), mul_one, ← H.size]
  rfl

theorem SqueezeOpened.Of.trade (H : e.Of x) {d : Ledger} {r : TradeRow} (hr : e.Row d r) :
    e.Trade x r (some e.intent.reason.notes) := by
  obtain ⟨inputs, -, -, hargs⟩ := H.args
  have hentry {α : Type} (f : TradeEntry → α) : f r.toTradeEntry =
      f ((e.intent.openArgs x inputs).row e.tid).toTradeEntry := by rw [hr.entry, hargs]
  refine ⟨hentry TradeEntry.id, ⟨hentry TradeEntry.asset, hentry TradeEntry.direction⟩, ?_,
    e.intent.reason.entryPrice, e.intent.reason.referenceStopPrice, H.fits.risk,
    hentry TradeEntry.entryPrice, ?_, ?_⟩
  · refine (hentry TradeEntry.exitTime).trans (congrArg some ?_)
    exact H.fits.exit
  · refine (hentry TradeEntry.sizeUsdt).trans (congrArg some ?_)
    exact sizeUsdt_openArgs_squeeze H.fits inputs
  · have htarget : e.intent.reason.referenceTargetPrice = e.intent.reason.entryPrice +
        3 * (e.intent.reason.entryPrice - e.intent.reason.referenceStopPrice) := H.fits.target
    rw [← htarget, ← H.fits.exit, ← H.fits.notes]

theorem isoformat_ne_empty (t : Time) : isoformat t ≠ "" := by
  intro h
  have h := congrArg String.toList h
  rw [isoformat] at h
  simp at h

/-- Entries of a variant have the same key for the same bar. -/
theorem uniqueKey_eq_iff (H : e.Of x) (H' : e'.Of x) :
    e.args.uniqueKey = e'.args.uniqueKey ↔ e.barTsUtc = e'.barTsUtc := by
  obtain ⟨inputs, -, -, hargs⟩ := H.args
  obtain ⟨inputs', -, -, hargs'⟩ := H'.args
  have hkey (e : SqueezeOpened) (inputs : SqueezeInputs) :
      (e.intent.openArgs x inputs).keyTimeIso = e.barTsUtc := if_neg (isoformat_ne_empty _)
  rw [hargs, hargs', OpenArgs.uniqueKey, OpenArgs.uniqueKey, hkey, hkey]
  constructor
  · intro h
    have h := congrArg String.toList h
    rw [buildUniqueKey_toList, buildUniqueKey_toList] at h
    have h := List.append_cancel_left h
    have h := List.append_cancel_left (List.cons.inj h).2
    have h := List.append_cancel_left (List.cons.inj h).2
    exact String.toList_inj.mp (List.cons.inj h).2
  · intro h
    rw [h]
    rfl

end trades

namespace SqueezeSys

variable {x : SqueezeVariant} {s : SqueezeSys} {clock : Time}

/-- In every run of the bot, over restarts and whatever other processes do to other variants: a
variant has one open trade at most; each of its trades is the long position of an entry, at the
levels and of the size of the variant; entries of one process are the cooldown apart, and two
entries are of one trade exactly if they are of one bar. -/
theorem disciplined {variants : List SqueezeVariant} (hids : (variants.map (·.id)).Nodup)
    (hx : x ∈ variants) {d : Ledger} (hd : d.Consistent)
    (hnew : ∀ r ∈ d.trades, r.strategyVariant ≠ x.id) {acts : List SqueezeAct}
    (h : (start d clock).run variants acts = some s) :
    (s.bot.ledger.openOf x.id).length ≤ 1 ∧
    (∀ r ∈ s.bot.ledger.trades, r.strategyVariant = x.id → ∃ e ∈ s.log,
      e.args.variantId = x.id ∧ e.Trade x r (s.bot.notes.get? r.id)) ∧
    s.log.Pairwise (fun e e' => e.args.variantId = x.id → e'.args.variantId = x.id →
      e.process = e'.process → e.firedAt + squeezeCooldown ≤ e'.decidedAt) ∧
    ∀ e ∈ s.log, ∀ e' ∈ s.log, e.args.variantId = x.id → e'.args.variantId = x.id →
      (e.tid = e'.tid ↔ e.barTsUtc = e'.barTsUtc) := by
  have H := disciplined_run hids hx hd hnew h
  refine ⟨?_, fun r hr hv => ?_, H.logged.spaced, fun e he e' he' hex hex' => ?_⟩
  · have hnodup := s.bot.ledger.openOf_nodup x.id
    cases hopen : s.bot.ledger.openOf x.id with
    | nil => exact Nat.zero_le 1
    | cons r rows =>
      have hone := H.held.one
      rw [hopen] at hnodup hone
      cases rows with
      | nil => exact le_rfl
      | cons r' rows =>
        have heq := hone r List.mem_cons_self r' (List.mem_cons_of_mem _ List.mem_cons_self)
        exact absurd (heq ▸ List.mem_cons_self) (List.nodup_cons.mp hnodup).1
  · obtain ⟨e, he, hex, hrow, hn⟩ := H.held.trades r hr hv
    rw [hn]
    exact ⟨e, he, hex, (H.logged.entries e he hex).trade hrow⟩
  · rw [← uniqueKey_eq_iff (H.logged.entries e he hex) (H.logged.entries e' he' hex')]
    have hkey := H.held.keyed e he
    have hkey' := H.held.keyed e' he'
    constructor
    · intro htid
      obtain ⟨row, hrow, hk, hid⟩ := hkey
      obtain ⟨row', hrow', hk', hid'⟩ := hkey'
      have heq : row = row' := List.inj_on_of_nodup_map
        H.held.consistent.minted.openedOnce.ids hrow hrow' (hid.trans (htid.trans hid'.symm))
      rw [heq, hk'] at hk
      exact (Option.some.inj hk).symm
    · intro hkeys
      rw [hkeys] at hkey
      exact hkey.unique hkey'

/-- Seven quiet bars, and one that sweeps their low on perp selling; 2026-09-21. -/
def sweptTables : SqueezeTables where
  futures15m := ⟨(List.range 7).map (fun k => (1_789_993_800 + 900 * (k : Int),
      ⟨110, 111, 100, 110, some 5, some 5⟩)) ++
    [(1_790_000_100, ⟨104, 105, 95, 100, some 5, some 105⟩)], by decide +kernel⟩
  spot15m := ⟨[(1_790_000_100, ⟨some 50, none⟩)], by decide +kernel⟩
  futuresOhlcv := ⟨[(1_789_948_800, ⟨120, 118⟩), (1_789_952_400, ⟨118, 112⟩)], by decide +kernel⟩
  openInterest := ⟨[(1_789_948_800, some 1000), (1_789_952_400, some 1010)], by decide +kernel⟩
  fundingRate := ⟨[(1_789_948_800, some (-1 / 10_000))], by decide +kernel⟩

/-- A tick at a second of that day, at a price. -/
def sweptTick (second : Int) (price : Option ℚ) : SqueezeInputs where
  data := { tables := sweptTables }
  price := price
  sweepNow := (1_789_948_800 + second) * 1_000_000

/-- Both variants enter on the bar; the first is stopped out, and after a restart it finds its trade
of the bar again. -/
def sweptActs : List SqueezeAct :=
  let v1 := ⟨"bot_short_squeeze_v1", true, 10_000⟩
  [.tick v1 (sweptTick 52_200 none),
    .tick ⟨"bot_short_squeeze_nostop_v1", false, 10_000⟩ (sweptTick 52_201 none),
    .tick v1 (sweptTick 52_220 (some 94)), .restart, .tick v1 (sweptTick 52_240 none)]

theorem disciplined_sweptActs : ∃ s, (start empty 0).run squeezeVariants sweptActs = some s ∧
    s.log.map (fun e => (e.process, e.tid)) = [(0, "SJ-0001"), (0, "SJ-0002"), (1, "SJ-0001")] ∧
    (s.bot.ledger.openOf "bot_short_squeeze_nostop_v1").length ≤ 1 := by
  have hrun : ((start empty 0).run squeezeVariants sweptActs).map (fun s =>
      s.log.map fun e => (e.process, e.tid)) =
      some [(0, "SJ-0001"), (0, "SJ-0002"), (1, "SJ-0001")] := by
    decide +kernel
  obtain ⟨s, hs, hlog⟩ := Option.map_eq_some_iff.mp hrun
  have hx : ⟨"bot_short_squeeze_nostop_v1", false, 10_000⟩ ∈ squeezeVariants :=
    List.mem_cons_of_mem _ List.mem_cons_self
  exact ⟨s, hs, hlog, (disciplined (by decide) hx Consistent.empty (fun _ h => nomatch h) hs).1⟩

end SqueezeSys

end P300
