import P300.Bots.SqueezeSys

/-!
# The exits of the short squeeze bot

A tick on fresh inputs with a price closes the open trade of its variant at that price as soon as it
is at the stop, at the target or past the time stop, and books it whole; nothing else of the tick
touches the closed trade again. Otherwise the trade stays as it is until its exit is due.
-/

namespace P300

open Ledger TxnStore

/-! ## The close of an open trade -/

section close

variable {env : Env} {d : Ledger} {r : TradeRow} {now : Time} {price : ℚ}

/-- What the close of a trade at a price books. -/
structure ClosedAt (env : Env) (now : Time) (price : ℚ) (r r' : TradeRow) : Prop where
  entry : r'.toTradeEntry = r.toTradeEntry
  status : r'.status = .closed
  exit : r'.exitPrice = some price ∧ r'.actualExitTime = some now
  pnl : ∃ basis qty size t, r.entryPrice = some basis ∧ r.qty = some qty ∧ r.sizeUsdt = some size ∧
    r.actualEntryTime = some t ∧ r'.pnlUsdt = some ((price - basis) * qty - size * 10 / 10_000 +
      size * env.accruedPct r.asset t now .long / 100)

/-- A trade that is open as it was opened closes at any price. -/
theorem squeezeClose_asOpened {a : OpenArgs} {tid : String} (hlong : a.direction = .long)
    (hentry : a.entryDt = none) (hsleeve : a.sleeveName = "SHORT_SQUEEZE")
    (hr : d.openTrade? tid = some (a.row tid))
    (hev : d.eventsOf tid = [(a.event tid).row a.now 0]) (hle : a.now ≤ now) :
    (squeezeClose env now tid price d).1 = .ok () ∧
    ∃ r' ∈ (squeezeClose env now tid price d).2.trades, ClosedAt env now price (a.row tid) r' := by
  have htime : a.entryTime = a.now := by rw [OpenArgs.entryTime, hentry, Option.getD_none]
  have hstrategy : a.sleeveName.toUpper.toUpper ∉ ["ADX", "THU_BEAR"] := by
    rw [hsleeve]
    decide +kernel
  obtain ⟨d', hrun, ⟨r', hr', hclosed⟩, -⟩ := @closePerp_asOpened env d a {
    tradeId := tid, exitPrice := price, costBpRt := 10, slippageBpRt := 0, now } hlong hstrategy rfl
    rfl hr hev (htime ▸ hle)
  rw [squeezeClose, hrun]
  obtain ⟨basis, qty, size, t, hbasis, hqty, hsize, ht, hpnl⟩ := hclosed.pnl
  rw [add_zero] at hpnl
  exact ⟨rfl, r', hr', hclosed.entry, hclosed.status, hclosed.exit,
    basis, qty, size, t, hbasis, hqty, hsize, ht, hpnl⟩

end close

/-! ## Ticks -/

section ticks

variable {x : SqueezeVariant} {inputs : SqueezeInputs} {bot : SqueezeBot} {price : ℚ} {r : TradeRow}

theorem keepsClosed_squeezeClose {d : Ledger} (hd : d.Minted) (env : Env) (now : Time)
    (tid : String) (price : ℚ) : d.KeepsClosed (squeezeClose env now tid price d).2 := by
  have hrun : d.KeepsClosed ((Call.closePerp {
      tradeId := tid, exitPrice := price, costBpRt := 10, slippageBpRt := 0, now }).run env d).1 :=
    keepsClosed_run hd _
  rw [squeezeClose]
  split
  · next heq => rwa [heq] at hrun
  · next heq => rwa [heq] at hrun

theorem keepsClosed_backstop (hd : bot.ledger.Consistent) (out : SqueezeOut) :
    bot.ledger.KeepsClosed (squeezeBackstop x inputs out bot).2.ledger := by
  refine (BackstopState.keeps_foldl (P := fun d => d.Consistent ∧ bot.ledger.KeepsClosed d)
    (fun _ _ h => h) ?_ ⟨hd, .refl _⟩ _).2
  intro strategy close hclose tid price reason world h
  rw [squeezeBackstopEnv] at hclose
  dsimp only at hclose
  split at hclose
  · obtain rfl := Option.some.inj hclose
    have hcloses := @onlyCloses_squeezeClose x.id world h.1 inputs.env inputs.closeNow tid price
    exact ⟨hcloses.consistent, h.2.trans (keepsClosed_squeezeClose h.1.minted _ _ _ _)⟩
  · cases hclose

theorem keepsClosed_squeezeEntry (hd : bot.ledger.Minted) (i : SqueezeIntent) (out : SqueezeOut) :
    bot.ledger.KeepsClosed (squeezeEntry x inputs i out bot).2.ledger := by
  rw [squeezeEntry]
  dsimp only
  split
  · exact .refl _
  · exact .refl _
  split
  · exact .refl _
  next sized _ =>
  have hexec : bot.ledger.KeepsClosed (squeezeExecute x inputs
      { i with allocationPct := 100, leverage := sized.leverage } bot).2.ledger := by
    rw [squeezeExecute_ledger]
    exact keepsClosed_run hd _
  split
  · next heq => rwa [heq] at hexec
  · next heq => rwa [heq] at hexec

theorem keepsClosed_squeezeEnter (hd : bot.ledger.Consistent) :
    (sweepOpenPositions x.id inputs bot).2.ledger.KeepsClosed
      (squeezeEnter x inputs bot).2.ledger := by
  have hsweep := @closing_sweep inputs bot hd x.id
  have hdecide : (squeezeDecide x inputs bot).2.ledger =
      (sweepOpenPositions x.id inputs bot).2.ledger := by
    rw [squeezeDecide]
    split
    · next heq => rw [heq]
    · next heq => rw [heq, ledger_decideEntry]
  have hd' := (hsweep.ledger x.id).consistent.minted
  rw [← hdecide] at hd' ⊢
  rw [squeezeEnter]
  split
  · next heq =>
    rw [heq]
    exact .refl _
  · next intent st _ heq =>
    rw [heq] at hd' ⊢
    cases intent with
    | none => exact .refl _
    | some i => exact keepsClosed_squeezeEntry hd' i _

/-- What the sweep has closed, the rest of the tick leaves alone. -/
theorem keepsClosed_squeezeTick (hd : bot.ledger.Consistent) (hfresh : inputs.staleMgmt = .ok []) :
    (sweepOpenPositions x.id inputs bot).2.ledger.KeepsClosed
      (squeezeTick x inputs bot).2.ledger := by
  have henter := (@squeezeEnter_effect x inputs bot hd).consistent
  rw [squeezeTick, hfresh]
  exact (keepsClosed_squeezeEnter hd).trans (keepsClosed_backstop henter _)

/-- The sweep of the one trade that is open. -/
theorem sweep_one {n : SqueezeNotes} (hopen : openSqueezeTrades x.id bot.ledger = [r])
    (hlong : r.direction = .long) (hn : bot.notes.get? r.id = some n)
    (hread : inputs.data.fails .openTrades = none ∧ inputs.data.fails .price = none)
    (hprice : inputs.price = some price) :
    sweepOpenPositions x.id inputs bot =
      match n.exitReason price inputs.sweepNow with
      | none => (.ok [], bot)
      | some reason =>
        match squeezeClose inputs.env inputs.sweepCloseNow r.id price bot.ledger with
        | (.ok _, ledger) => (.ok [(r.id, reason)], { bot with ledger })
        | (.error e, ledger) =>
          (if passes reason e then .ok [] else .error (inputs.repr e), { bot with ledger }) := by
  have hread₁ : inputs.data.read .openTrades (openSqueezeTrades x.id bot.ledger) = .ok [r] := by
    rw [SqueezeData.read, hread.1, hopen]
  have hread₂ : inputs.data.read .price inputs.price = .ok (some price) := by
    rw [SqueezeData.read, hread.2, hprice]
  rw [sweepOpenPositions, hread₁]
  dsimp only
  rw [hread₂]
  dsimp only
  rw [sweepLoop, if_neg (not_not_intro hlong), hn, Option.getD_some]
  cases n.exitReason price inputs.sweepNow with
  | none => rfl
  | some reason =>
    dsimp only
    generalize squeezeClose inputs.env inputs.sweepCloseNow r.id price bot.ledger = p
    rcases p with ⟨e | _, ledger⟩
    · dsimp only
      cases passes reason e with
      | false => rfl
      | true => rfl
    · rfl

/-- A tick that closes nothing and opens nothing. -/
theorem squeezeTick_idle (hfresh : inputs.staleMgmt = .ok [])
    (hsweep : sweepOpenPositions x.id inputs bot = (.ok [], bot))
    (hopen : openSqueezeTrades x.id bot.ledger = [r])
    (hdue : ∀ t ∈ bot.ledger.openOf x.id, ∀ exitDt ∈ t.exitTime, inputs.exitsNow < exitDt) :
    (squeezeTick x inputs bot).2.ledger = bot.ledger := by
  have hdecide : ∃ result, squeezeDecide x inputs bot = (result, bot) ∧
      ∀ i st, result ≠ .ok (some i, st) := by
    rw [squeezeDecide, hsweep]
    dsimp only
    rw [decideEntry]
    split
    · exact ⟨_, rfl, fun i st h => by cases h⟩
    rw [hopen, SqueezeData.read]
    split
    · next heq =>
      split at heq
      · exact ⟨_, rfl, fun i st h => by cases h⟩
      · cases heq
    · exact ⟨_, rfl, fun i st h => by cases h⟩
    · next heq =>
      split at heq
      · cases heq
      · cases heq
  have henter : (squeezeEnter x inputs bot).2 = bot := by
    obtain ⟨result, hresult, hnone⟩ := hdecide
    rw [squeezeEnter, hresult]
    rcases result with e | ⟨_ | i, st⟩
    · rfl
    · rfl
    · exact absurd rfl (hnone i st)
  rw [squeezeTick, hfresh]
  dsimp only
  rw [henter]
  exact closeDueTrades_of_not_due hdue

end ticks

namespace SqueezeSys

variable {x : SqueezeVariant} {s s' : SqueezeSys} {inputs : SqueezeInputs} {r : TradeRow}
  {price : ℚ}

theorem Held.openSqueezeTrades_eq (H : s.Held x) (H' : s.Logged x)
    (hr : r ∈ s.bot.ledger.openOf x.id) : openSqueezeTrades x.id s.bot.ledger = [r] := by
  have hopen : s.bot.ledger.openOf x.id = [r] := by
    have hnodup := s.bot.ledger.openOf_nodup x.id
    have hone := H.one
    generalize s.bot.ledger.openOf x.id = rows at hr hnodup hone
    rcases rows with _ | ⟨r₀, _ | ⟨r₁, rows⟩⟩
    · cases hr
    · rw [List.mem_singleton.mp hr]
    · have heq := hone r₀ List.mem_cons_self r₁ (List.mem_cons_of_mem _ List.mem_cons_self)
      exact absurd (heq ▸ List.mem_cons_self) (List.nodup_cons.mp hnodup).1
  obtain ⟨hmem, hv, -⟩ := mem_openOf.mp hr
  obtain ⟨e, he, hex, hrow, -⟩ := H.trades r hmem hv
  rw [openSqueezeTrades, hopen, List.filter_cons_of_pos, List.filter_nil]
  exact decide_eq_true (strategy_of_row (H'.entries e he hex) hrow)

/-- In every state that a run reaches, a tick on fresh inputs with a price closes the open trade of
its variant at that price if it is at the stop, at the target or past the time stop, and books
nothing else of it; otherwise, unless the exit is due, it leaves the ledger as it is. -/
theorem exits {variants : List SqueezeVariant} (hids : (variants.map (·.id)).Nodup)
    (hx : x ∈ variants) {d : Ledger} (hd : d.Consistent)
    (hnew : ∀ r ∈ d.trades, r.strategyVariant ≠ x.id) {clock : Time} {acts : List SqueezeAct}
    (h : (start d clock).run variants acts = some s)
    (ha : s.step variants (.tick x inputs) = some s') (hfresh : inputs.staleMgmt = .ok [])
    (hread : inputs.data.fails .openTrades = none ∧ inputs.data.fails .price = none)
    (hprice : inputs.price = some price) (hr : r ∈ s.bot.ledger.openOf x.id) :
    ∃ n, s.bot.notes.get? r.id = some n ∧
      match n.exitReason price inputs.sweepNow with
      | some _ => ∃ r' ∈ s'.bot.ledger.trades, ClosedAt inputs.env inputs.sweepCloseNow price r r'
      | none => (∀ t ∈ r.exitTime, inputs.exitsNow < t) → s'.bot.ledger = s.bot.ledger := by
  have H := disciplined_run hids hx hd hnew h
  have hopens := H.held.openSqueezeTrades_eq H.logged hr
  obtain ⟨hmem, hv, ho⟩ := mem_openOf.mp hr
  obtain ⟨e, he, hex, hrow, hn⟩ := H.held.trades r hmem hv
  obtain ⟨inputs₀, hfired, -, hargs⟩ := (H.logged.entries e he hex).args
  obtain ⟨hlive, hev⟩ := hrow.live ho
  have hlong : r.direction = .long := by
    rw [hlive, hargs]
    rfl
  have hsweep := sweep_one hopens hlong hn hread hprice
  rw [SqueezeSys.step] at ha
  split at ha
  swap
  · cases ha
  next hguard =>
  obtain ⟨-, hclock, hord⟩ := hguard
  cases ha
  rw [show (s.tick x inputs).bot = (squeezeTick x inputs s.bot).2 from rfl]
  refine ⟨_, hn, ?_⟩
  split
  · next reason heq =>
    rw [heq] at hsweep
    have hnow : e.args.now ≤ inputs.sweepCloseNow := by
      rw [hargs]
      exact (hfired.trans (H.logged.clock e he)).trans (hclock.trans hord.1)
    have htrade := openTrade?_of_mem hmem ho
    have hkept := @keepsClosed_squeezeTick x inputs s.bot H.held.consistent hfresh
    subst hlive
    obtain ⟨hok, r', hr', hclosed⟩ := @squeezeClose_asOpened inputs.env s.bot.ledger
      inputs.sweepCloseNow price e.args e.tid hlong (by rw [hargs]; rfl) (by rw [hargs]; rfl) htrade
      hev hnow
    have hnot : r'.status ≠ .open_ := by
      rw [hclosed.status]
      exact Status.noConfusion
    dsimp only at hsweep
    generalize hclose : squeezeClose inputs.env inputs.sweepCloseNow e.tid price s.bot.ledger = p
      at hok hr'
    rcases p with ⟨_ | _, ledger⟩
    · cases hok
    · rw [show (e.args.row e.tid).id = e.tid from rfl, hclose] at hsweep
      rw [hsweep] at hkept
      exact ⟨r', hkept r' hr' hnot, hclosed⟩
  · next hnone =>
    rw [hnone] at hsweep
    intro hdue
    exact squeezeTick_idle hfresh hsweep hopens fun t ht => H.held.one r hr t ht ▸ hdue

/-- The stop of the trade on the swept bar is at 94.905. -/
theorem exits_sweptTick : ∃ s s' r,
    (start empty 0).run squeezeVariants (sweptActs.take 2) = some s ∧
    s.step squeezeVariants (.tick ⟨"bot_short_squeeze_v1", true, 10_000⟩
      (sweptTick 52_220 (some 94))) = some s' ∧
    r ∈ s.bot.ledger.openOf "bot_short_squeeze_v1" ∧ ∃ r' ∈ s'.bot.ledger.trades,
      ClosedAt quietEnv (1_790_001_020 * 1_000_000) 94 r r' := by
  let v1 : SqueezeVariant := ⟨"bot_short_squeeze_v1", true, 10_000⟩
  let inputs := sweptTick 52_220 (some 94)
  have hx : v1 ∈ squeezeVariants := List.mem_cons_self
  have hrun : ((start empty 0).run squeezeVariants (sweptActs.take 2)).map (fun s =>
      ((s.step squeezeVariants (.tick v1 inputs)).isSome, (s.bot.ledger.openOf v1.id).map fun r =>
        ((s.bot.notes.get? r.id).bind fun n => n.exitReason 94 inputs.sweepNow))) =
      some (true, [some "stop_loss"]) := by
    decide +kernel
  obtain ⟨s, hs, hvalue⟩ := Option.map_eq_some_iff.mp hrun
  obtain ⟨hstep, hreason⟩ := Prod.mk.inj hvalue
  obtain ⟨s', hs'⟩ := Option.isSome_iff_exists.mp hstep
  obtain ⟨r, rows, hopen, hr, -⟩ := List.map_eq_cons_iff.mp hreason
  have hmem : r ∈ s.bot.ledger.openOf v1.id := hopen ▸ List.mem_cons_self
  obtain ⟨n, hn, hexit⟩ := exits (by decide) hx Consistent.empty (fun _ h => nomatch h) hs hs' rfl
    ⟨rfl, rfl⟩ rfl hmem
  rw [hn, Option.bind_some] at hr
  rw [hr] at hexit
  exact ⟨s, s', r, hs, hs', hmem, hexit⟩

end SqueezeSys

end P300
