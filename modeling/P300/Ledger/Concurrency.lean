import P300.Lib.Serializable
import P300.Ledger.Clients
import P300.Ledger.History

/-!
# Concurrent lifecycle calls

`apply_scale`, `apply_leverage_adjust` and `apply_flip` read the open row before they take the write
lock and do not look at the row count of their `UPDATE`, so what they commit is right only while
that row still reads the same. When it does for every call that takes the lock (`ReadsCurrent`), a
run is serialisable; when it does not, two flips of one trade open two children.
-/

namespace P300

open TxnStore Ledger

/-- A close that checks the row count of its `UPDATE` and whose trade is closed by now. -/
def Call.LostClose (d : Ledger) : Call → Prop
  | .closeCarry a => d.openTrade? a.tradeId = none
  | .persistClose a => d.openTrade? a.tradeId = none
  | _ => False

/-- Where call `i` takes the write lock, or makes the read after which it returns: what it has read
so far would read the same now, or it is a lost close. -/
def ReadsCurrent {ι : Type} (env : Env) (calls : ι → Call) (s : Sys ι Ledger Reply) (i : ι) :
    Prop :=
  s.Decides i →
    (progs env calls i).ReadsAt s.committed (s.proc i) ∨ (calls i).LostClose s.committed

section fresh

variable {env : Env} {d d' : Ledger} {p : Prog Ledger Reply} {P : Ledger → Prop}

/-- The row of a trade keeps what it was opened with. -/
theorem Ledger.Grows.trade? (h : d'.Grows d) {tid : String} {r' : TradeRow}
    (hr : d'.trade? tid = some r') :
    ∃ r, d.trade? tid = some r ∧ r.toTradeEntry = r'.toTradeEntry := by
  obtain ⟨hm, rfl⟩ := trade?_eq_some hr
  have hx : r'.toTradeEntry ∈ d.entries := h.entries.subset (List.mem_map_of_mem hm)
  obtain ⟨r, hm', he⟩ := List.mem_map.mp hx
  have hid : r.id = r'.id := congrArg TradeEntry.id he
  exact ⟨r, hid ▸ trade?_of_mem hm', he⟩

theorem persistCloseAlone_lost {a : PersistArgs} (hp : (persistCloseAlone a).ReadsIn P p)
    (hcl : d.openTrade? a.tradeId = none) : p.run d = (d, .bool false) := by
  rcases hp with rfl | ⟨d', -, hp⟩
  · rw [show Prog.select _ _ = persistCloseAlone a from rfl, persistCloseAlone_run, hcl]
  · dsimp only at hp
    cases hr : d'.openTrade? a.tradeId with
    | none =>
      rw [hr] at hp
      rw [show p = .ret (.bool false) from hp]
      rfl
    | some r =>
      rw [hr] at hp
      rw [show p = bookClose a r.closeCols _ from hp, Prog.run, bookClose_runWith rfl,
        Option.getD_none, if_pos hcl]
      rfl

/-- A carry close whose trade is closed by now has nothing left to do, whatever it has read. -/
theorem closeCarryTrade_lost {a : CarryCloseArgs}
    (hp : (closeCarryTrade env a).ReadsIn d.Before p) (hret : ∀ r, p ≠ .ret r)
    (hcl : d.openTrade? a.tradeId = none) : p.run d = (closeCarryTrade env a).run d := by
  rcases hp with rfl | ⟨d', hd', hp⟩
  · rfl
  · dsimp only at hp
    cases hr : d'.trade? a.tradeId with
    | none =>
      rw [hr] at hp
      exact absurd hp (hret _)
    | some r' =>
      obtain ⟨r, hr', he⟩ := hd'.2.trade? hr
      have hcols : r.carryCols = r'.carryCols := by
        have := congrArg (fun x : TradeEntry =>
          CarryCols.mk x.entryPrice x.qty x.sizeUsdt x.actualEntryTime x.asset) he
        exact this
      rw [hr, Option.map_some] at hp
      rw [closeCarryTrade, Prog.run, Prog.run, Prog.runWith_select, Option.getD_none, hr',
        Option.map_some, hcols]
      dsimp only at hp ⊢
      split at hp
      · exact absurd hp (hret _)
      · next b hb =>
        have hid : b.tradeId = a.tradeId := carryBooking_tradeId hb
        rw [← Prog.run, ← Prog.run, persistCloseAlone_lost hp (hid ▸ hcl),
          persistCloseAlone_lost (.refl (fun _ => True) _) (hid ▸ hcl)]

/-- A call that acts on current reads is fresh. -/
theorem fresh_of_current {ι : Type} {calls : ι → Call} {s : Sys ι Ledger Reply} {i : ι}
    (hinv : s.Inv (fun d => d.Minted ∧ d.Grows s.committed) (progs env calls))
    (h : ReadsCurrent env calls s i) (hd : s.Decides i) : Sys.Fresh (progs env calls) s i := by
  rcases h hd with h | h
  · exact .of_readsAt h
  · have hret : ∀ r, s.proc i ≠ .ret r := fun r hr => by
      have := hd.2
      rw [hr] at this
      exact this
    have hp := (hinv.phase i hd.1).resolve_left fun ⟨r, hr⟩ => hret r hr
    unfold Sys.Fresh
    unfold progs at hp ⊢
    cases hc : calls i with
    | closeCarry a =>
      rw [hc] at h hp
      exact closeCarryTrade_lost hp hret h
    | persistClose a =>
      rw [hc] at h hp
      rw [persistCloseAlone_lost hp h]
      exact (persistCloseAlone_lost (.refl (fun _ => True) _) h).symm
    | openTrade | scale | leverage | flip | closePerp =>
      rw [hc] at h
      exact h.elim

end fresh

/-! ## Serialisability -/

/-- The trade `r` ended at most once and in order: its realised P&L is what its events add up to,
nothing is recorded after a terminal event, and at most one child was opened from it. -/
structure Ledger.EndedOnce (d : Ledger) (r : TradeRow) : Prop where
  terminals : (d.eventsOf r.id).countP (fun b => b.eventType.Terminal) ≤ 1
  last : ∀ pre b post, d.eventsOf r.id = pre ++ b :: post → b.eventType.Terminal → post = []
  realized : r.realizedPnlUsdt = some (deltas (d.eventsOf r.id))
  children : (d.childrenOf r.id).length ≤ 1

theorem Ledger.Told.endedOnce {d : Ledger} {r : TradeRow} (h : d.Told r) : d.EndedOnce r where
  terminals := by
    by_cases ho : r.status = .open_
    · rw [List.countP_eq_zero.mpr fun b hb hc => h.live ho b hb (of_decide_eq_true hc)]
      exact Nat.zero_le 1
    · obtain ⟨-, es, b, he, -, hes⟩ := h.ended ho
      rw [he, List.countP_append,
        List.countP_eq_zero.mpr fun c hc hc' => hes c hc (of_decide_eq_true hc'), Nat.zero_add]
      exact List.countP_le_length
  last _ _ _ he hb := h.last_of_terminal he hb
  realized := h.realized
  children := h.children.trans h.flips_le_one

section serialisable

variable {ι : Type} [DecidableEq ι] {env : Env} {calls : ι → Call} {d₀ : Ledger}
  {s : Sys ι Ledger Reply}

/-- Where every client reads current values, the clients are fresh. -/
theorem fresh_of_runs (hd : d₀.Consistent)
    (hr : Sys.Runs (ReadsCurrent env calls) (.init d₀ (progs env calls)) s) {i : ι}
    (hc : ReadsCurrent env calls s i) (hdec : s.Decides i) :
    Sys.Fresh (progs env calls) s i :=
  have hinv := (Call.sound env calls).invariant hd.minted (hr.crashes (.raised .crashed))
  fresh_of_current hinv.2.2 hc hdec

/-- In every state of such a run the ledger is that of the calls of some list, one at a time. -/
theorem serial_of_current (hd : d₀.Consistent)
    (hr : Sys.Runs (ReadsCurrent env calls) (.init d₀ (progs env calls)) s) :
    ∃ order : List ι, order.Nodup ∧ Sys.serial (progs env calls) order d₀ = s.committed := by
  obtain ⟨order, hl⟩ := hr.linear (fun i => (calls i).readPhase env)
    fun _ _ hr' hc hdec => fresh_of_runs hd hr' hc hdec
  exact ⟨order, hl.nodup, hl.committed⟩

/-- Any number of lifecycle calls, on any trades: in a run whose steps all act on current reads,
every trade has ended at most once in every state, and when all calls have returned, the ledger and
the results are those of the calls one at a time in some order. -/
theorem serialisable_of_current [Fintype ι] (hd : d₀.Consistent)
    (hr : Sys.Runs (ReadsCurrent env calls) (.init d₀ (progs env calls)) s) :
    (∀ r ∈ s.committed.trades, s.committed.EndedOnce r) ∧
    (∃ order : List ι, order.Nodup ∧ Sys.serial (progs env calls) order d₀ = s.committed) ∧
    ((∀ i, ∃ r, s.Done i r) → ∃ order : List ι, order.Nodup ∧ (∀ i, i ∈ order) ∧
      Sys.serial (progs env calls) order d₀ = s.committed ∧
      ∀ a i b, order = a ++ i :: b →
        s.Done i ((progs env calls i).run (Sys.serial (progs env calls) a d₀)).2) := by
  refine ⟨fun r hm => ?_, serial_of_current hd hr, fun hdone => ?_⟩
  · obtain ⟨order, -, he⟩ := serial_of_current hd hr
    have hc : s.committed.Consistent := by
      rw [← he]
      exact Sys.serial_invariant (fun i d h => h.run (calls i)) hd order
    exact (hc.told r hm).endedOnce
  · exact hr.serializable (fun i => (calls i).readPhase env)
      (fun _ _ hr' hc hdec => fresh_of_runs hd hr' hc hdec) hdone

/-- Calls that read under the write lock always read current values. -/
theorem readsCurrent_of_locked
    (hlock : ∀ i, (∃ a, calls i = .openTrade a) ∨ ∃ a, calls i = .closePerp a)
    (hr : Sys.Reach (.init d₀ (progs env calls)) s) :
    Sys.Runs (ReadsCurrent env calls) (.init d₀ (progs env calls)) s := by
  refine hr.mono fun s i hs _ hdec => .inl ?_
  have hinv := hs.inv fun i => (calls i).readPhase env
  have hp : (progs env calls i).ReadsIn (fun _ => True) (s.proc i) := by
    refine (hinv.phase i hdec.1).resolve_left ?_
    rintro ⟨r, hr⟩
    have := hdec.2
    rw [hr] at this
    exact this
  have he : s.proc i = progs env calls i := by
    unfold progs at hp ⊢
    rcases hlock i with ⟨a, ha⟩ | ⟨a, ha⟩
    · rw [ha] at hp ⊢
      exact openPaperTrade_readsIn hp
    · rw [ha] at hp ⊢
      exact hp
  rw [he]
  exact .refl ..

end serialisable

/-- A ledger with one open trade `SJ-0001`. -/
def oneOpenTrade : Ledger :=
  ((Call.openTrade {
    variantId := "jplus", sleeveName := "ema_btc", asset := "BTC", direction := .long
    entryPrice := 100, allocationPct := 10, now := 0 }).run quietEnv .empty).1

theorem oneOpenTrade_consistent : oneOpenTrade.Consistent := Consistent.empty.run _

/-- Two processes close `SJ-0001` at the same time. -/
def twoCloses (_ : Fin 2) : Call :=
  .closePerp { tradeId := "SJ-0001", exitPrice := 120, now := 3_600_000_000 }

/-- The second process waits at its `BEGIN IMMEDIATE` until the first has committed. -/
theorem serialisable_twoCloses :
    ∃ s, Sys.Reach (.init oneOpenTrade (progs quietEnv twoCloses)) s ∧
      s.committed.trades.map (·.status) = [.closed] ∧
      (∀ r ∈ s.committed.trades, s.committed.EndedOnce r) ∧
      ∃ order : List (Fin 2), order.Nodup ∧ (∀ i, i ∈ order) ∧
        Sys.serial (progs quietEnv twoCloses) order oneOpenTrade = s.committed := by
  have hrun : ((Sys.init oneOpenTrade (progs quietEnv twoCloses)).steps
      (List.replicate 8 0 ++ List.replicate 3 1)).map (fun s =>
      (s.committed.trades.map (·.status), s.writer.isNone, (s.proc 0).result?,
        (s.proc 1).result?)) =
      some ([.closed], true, some .none, some .none) := by decide +kernel
  obtain ⟨s, hs, he⟩ := Option.map_eq_some_iff.mp hrun
  simp only [Prod.mk.injEq] at he
  obtain ⟨hst, hw, h0, h1⟩ := he
  have hnot := Sys.not_holds_of_none (Option.isNone_iff_eq_none.mp hw)
  have hreach := Sys.Reach.of_steps .refl hs
  obtain ⟨hended, -, hall⟩ := serialisable_of_current oneOpenTrade_consistent
    (readsCurrent_of_locked (fun _ => .inr ⟨_, rfl⟩) hreach)
  obtain ⟨order, hn, hmem, hser, -⟩ := hall fun i => match i with
    | 0 => ⟨_, Prog.eq_ret_of_result? h0, hnot 0⟩
    | 1 => ⟨_, Prog.eq_ret_of_result? h1, hnot 1⟩
  exact ⟨s, hreach, hst, hended, order, hn, hmem, hser⟩

/-- Two processes flip `SJ-0001` at the same time. -/
def twoFlips (_ : Fin 2) : Call :=
  .flip { tradeId := "SJ-0001", newDirection := .short, price := 120, now := 3_600_000_000 }

/-- Both read the open row before the first of them takes the write lock. -/
def staleSchedule : List (Fin 2) :=
  [0, 1] ++ List.replicate 8 0 ++ List.replicate 8 1

/-- Two flips of one trade open two children, which they do in no serial order. -/
theorem stale_flips_open_two_children :
    ∃ s, Sys.Reach (.init oneOpenTrade (progs quietEnv twoFlips)) s ∧ (∀ i, ∃ r, s.Done i r) ∧
      (s.committed.childrenOf "SJ-0001").length = 2 ∧
      ∀ order, Sys.serial (progs quietEnv twoFlips) order oneOpenTrade ≠ s.committed := by
  have hrun : ((Sys.init oneOpenTrade (progs quietEnv twoFlips)).steps staleSchedule).map (fun s =>
      ((s.committed.childrenOf "SJ-0001").length, s.writer.isNone, (s.proc 0).result?,
        (s.proc 1).result?, s.committed.trades.map (·.id))) =
      some (2, true, some (.id "SJ-0002"), some (.id "SJ-0003"),
        ["SJ-0001", "SJ-0002", "SJ-0003"]) := by decide +kernel
  obtain ⟨s, hs, he⟩ := Option.map_eq_some_iff.mp hrun
  simp only [Prod.mk.injEq] at he
  obtain ⟨hch, hw, h0, h1, hids⟩ := he
  have hnot := Sys.not_holds_of_none (Option.isNone_iff_eq_none.mp hw)
  refine ⟨s, .of_steps .refl hs, fun i => ?_, hch, fun order he => ?_⟩
  · match i with
    | 0 => exact ⟨_, Prog.eq_ret_of_result? h0, hnot 0⟩
    | 1 => exact ⟨_, Prog.eq_ret_of_result? h1, hnot 1⟩
  · have hc : s.committed.Consistent := by
      rw [← he]
      exact Sys.serial_invariant (fun i d h => h.run (twoFlips i)) oneOpenTrade_consistent order
    have hmem : "SJ-0001" ∈ s.committed.trades.map (·.id) := by rw [hids]; decide
    obtain ⟨r, hr, hid⟩ := List.mem_map.mp hmem
    have := (hc.told r hr).endedOnce.children
    rw [hid, hch] at this
    exact absurd this (by decide)

end P300
