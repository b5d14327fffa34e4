import P300.Ledger.Clients
import Mathlib.Data.List.Pairwise

/-!
# Opening a trade exactly once

Any number of processes open and flip trades, and any of them may die before it commits. Ids are
minted in strictly increasing order (`Ledger.Minted`), and the trades and the `OPEN` events numbered
`0` come in pairs. The idempotency key determines the trade: every open that returns an id returns
that of the only row with its key, and two opens have the same key only when variant, sleeve, asset
and signal time are the same.
-/

namespace P300

open TxnStore Ledger

/-! ## Keys -/

theorem append_sep_inj {α : Type} {sep : α} {l l' r r' : List α} (h : sep ∉ l) (h' : sep ∉ l')
    (e : l ++ sep :: r = l' ++ sep :: r') : l = l' ∧ r = r' := by
  induction l generalizing l' with
  | nil =>
    cases l' with
    | nil => exact ⟨rfl, (List.cons.inj e).2⟩
    | cons b l' =>
      rw [(List.cons.inj e).1] at h'
      exact absurd List.mem_cons_self h'
  | cons a l ih =>
    cases l' with
    | nil =>
      rw [← (List.cons.inj e).1] at h
      exact absurd List.mem_cons_self h
    | cons b l' =>
      obtain ⟨rfl, hl⟩ := List.cons.inj e
      have ih := ih (fun hm => h (List.mem_cons_of_mem _ hm))
        (fun hm => h' (List.mem_cons_of_mem _ hm)) hl
      exact ⟨congrArg (a :: ·) ih.1, ih.2⟩

/-- The components of a key do not contain its separator. -/
structure KeyComponents (variantId sleeveName asset : String) : Prop where
  variantId : '|' ∉ variantId.toList
  sleeveName : '|' ∉ sleeveName.toUpper.toList
  asset : '|' ∉ asset.toList

theorem buildUniqueKey_toList (v n a t : String) : (buildUniqueKey v n a t).toList =
    v.toList ++ '|' :: (n.toUpper.toList ++ '|' :: (a.toList ++ '|' :: t.toList)) := by
  simp [buildUniqueKey]

/-- The key determines its components. -/
theorem buildUniqueKey_inj {v n a t v' n' a' t' : String} (h : KeyComponents v n a)
    (h' : KeyComponents v' n' a') :
    buildUniqueKey v n a t = buildUniqueKey v' n' a' t' ↔
      v = v' ∧ n.toUpper = n'.toUpper ∧ a = a' ∧ t = t' := by
  constructor
  · intro e
    have e := congrArg String.toList e
    rw [buildUniqueKey_toList, buildUniqueKey_toList] at e
    obtain ⟨hv, e⟩ := append_sep_inj h.variantId h'.variantId e
    obtain ⟨hn, e⟩ := append_sep_inj h.sleeveName h'.sleeveName e
    obtain ⟨ha, ht⟩ := append_sep_inj h.asset h'.asset e
    exact ⟨String.toList_inj.mp hv, String.toList_inj.mp hn, String.toList_inj.mp ha,
      String.toList_inj.mp ht⟩
  · rintro ⟨rfl, hn, rfl, rfl⟩
    rw [buildUniqueKey, buildUniqueKey, hn]

namespace Ledger

variable {d d' : Ledger} {key tid : String}

/-- The trade `tid` has the idempotency key `key`. -/
def Keyed (d : Ledger) (key tid : String) : Prop :=
  ∃ x ∈ d.entries, x.uniqueKey = some key ∧ x.id = tid

theorem keyed_of_idOfKey? (h : d.idOfKey? key = some tid) : d.Keyed key tid := by
  obtain ⟨r, hr, rfl⟩ := Option.map_eq_some_iff.mp h
  have hk := List.find?_some hr
  exact ⟨r.toTradeEntry, List.mem_map_of_mem (List.mem_of_find?_eq_some hr),
    of_decide_eq_true hk, rfl⟩

theorem Keyed.grows (h : d.Keyed key tid) (hg : d.Grows d') : d'.Keyed key tid := by
  obtain ⟨x, hx, h⟩ := h
  exact ⟨x, hg.entries.subset hx, h⟩

/-- `uix_trades_unique_key` -/
theorem entry_of_key {x y : TradeEntry} (hx : x ∈ d.entries) (hy : y ∈ d.entries)
    (hxk : x.uniqueKey = some key) (hyk : y.uniqueKey = some key) : x = y := by
  obtain ⟨r, hr, rfl⟩ := List.mem_map.mp hx
  obtain ⟨r', hr', rfl⟩ := List.mem_map.mp hy
  by_contra hne
  have hp := List.pairwise_filterMap.mp d.keys_nodup
  have hsymm : Std.Symm fun r r' : TradeRow => ∀ k, r.uniqueKey = some k →
      ∀ k', r'.uniqueKey = some k' → k ≠ k' :=
    ⟨fun _ _ h k hk k' hk' => (h k' hk' k hk).symm⟩
  exact hp.forall hr hr' (fun h => hne (h ▸ rfl)) key hxk key hyk rfl

theorem Keyed.unique {tid' : String} (h : d.Keyed key tid) (h' : d.Keyed key tid') :
    tid = tid' := by
  obtain ⟨x, hx, hxk, rfl⟩ := h
  obtain ⟨y, hy, hyk, rfl⟩ := h'
  rw [entry_of_key hx hy hxk hyk]

/-- Ids are distinct and ascending, a key belongs to one row, and exactly the trades have an `OPEN`
event with the number `0`. -/
structure OpenedOnce (d : Ledger) : Prop where
  ids : (d.entries.map (·.id)).Nodup
  sj : ∀ x ∈ d.entries, x.id = sjId (sjNumber x.id)
  ascending : d.entries.Pairwise fun x y => sjNumber x.id < sjNumber y.id
  keys : ∀ x ∈ d.entries, ∀ y ∈ d.entries, ∀ key, x.uniqueKey = some key →
    y.uniqueKey = some key → x = y
  opened : ∀ tid, d.Has tid ↔
    ∃ b ∈ d.adjustments, b.tradeId = tid ∧ b.seq = 0 ∧ b.eventType = .open_

theorem Minted.openedOnce (h : d.Minted) : d.OpenedOnce where
  ids := by
    have := d.ids_nodup
    rwa [entries, List.map_map]
  sj x hx := (h.sj x hx).2
  ascending := h.ascending
  keys _ hx _ hy _ hxk hyk := entry_of_key hx hy hxk hyk
  opened tid := by
    constructor
    · rintro ⟨x, hx, rfl⟩
      exact h.opened x hx
    · rintro ⟨b, hb, rfl, -⟩
      exact h.owned b hb

end Ledger

/-! ## Opens -/

/-- An open by itself returns the id of a trade with its key, or no id. -/
theorem openPaperTrade_keyed {d : Ledger} (hd : d.Minted) {a : OpenArgs} {tid : String}
    (h : ((openPaperTrade a).run d).2 = .id tid) :
    ((openPaperTrade a).run d).1.Keyed a.uniqueKey tid := by
  cases ha : a.standingDown with
  | some reason =>
    rw [openPaperTrade, ha] at h
    cases h
  | none =>
    rw [openPaperTrade_run hd a ha] at h ⊢
    cases hk : d.idOfKey? a.uniqueKey with
    | some existing =>
      rw [hk] at h
      cases h
      exact keyed_of_idOfKey? hk
    | none =>
      rw [hk] at h
      cases h
      have hu : d.Unused (a.row d.nextSjId) := hd.unused rfl (by rintro k ⟨⟩; exact hk)
      exact ⟨(a.row d.nextSjId).toTradeEntry, by rw [hu.spawn_entries]; simp, rfl, rfl⟩

section runs

variable {ι : Type} [DecidableEq ι] {env : Env} {calls : ι → Call} {d₀ : Ledger}
  {s : Sys ι Ledger Reply}

/-- An open that has returned an id, in any interleaving with crashes. -/
theorem done_keyed (hd : d₀.Minted)
    (hs : Sys.Crashes (.raised .crashed) (.init d₀ (progs env calls)) s) {i : ι} {a : OpenArgs}
    {tid : String} (hi : calls i = .openTrade a) (h : s.Done i (.id tid)) :
    s.committed.Keyed a.uniqueKey tid := by
  refine (Call.sound env calls).result (Q := fun i d reply => ∀ a tid, calls i = .openTrade a →
    reply = .id tid → d.Keyed a.uniqueKey tid) ?_ ?_ ?_ hd hs h a tid hi rfl
  · intro j p d hdm hp b t hj ht
    rw [progs, hj] at hp
    rw [openPaperTrade_readsIn hp] at ht ⊢
    exact openPaperTrade_keyed hdm ht
  · intro j d d' reply _ hg hq b t hj ht
    exact (hq b t hj ht).grows hg
  · intro j d b t _ ht
    cases ht

/-- Any number of lifecycle calls, in any interleaving that the write lock allows and with crashes:
trades are opened once, later ones under greater ids, and every open that returns an id returns that
of the row with its key, which two opens share only when all components of the key are the same. -/
theorem opened_exactly_once (hd : d₀.Minted)
    (hs : Sys.Crashes (.raised .crashed) (.init d₀ (progs env calls)) s) :
    s.committed.OpenedOnce ∧
    (∀ t, Sys.Crashes (.raised .crashed) s t → s.committed.entries <+: t.committed.entries) ∧
    (∀ i a tid, calls i = .openTrade a → s.Done i (.id tid) →
      ∃ x ∈ s.committed.entries, x.uniqueKey = some a.uniqueKey ∧ x.id = tid) ∧
    ∀ i j a b tid tid', calls i = .openTrade a → calls j = .openTrade b → s.Done i (.id tid) →
      s.Done j (.id tid') → KeyComponents a.variantId a.sleeveName a.asset →
      KeyComponents b.variantId b.sleeveName b.asset →
      (tid = tid' ↔ a.variantId = b.variantId ∧ a.sleeveName.toUpper = b.sleeveName.toUpper ∧
        a.asset = b.asset ∧ a.keyTimeIso = b.keyTimeIso) := by
  have hsound := Call.sound env calls
  refine ⟨(hsound.invariant hd hs).1.openedOnce, fun t ht => (hsound.grows hd hs ht).entries,
    fun i a tid hi h => done_keyed hd hs hi h, ?_⟩
  intro i j a b tid tid' hi hj hti htj ha hb
  have hka := done_keyed hd hs hi hti
  have hkb := done_keyed hd hs hj htj
  rw [← buildUniqueKey_inj ha hb]
  constructor
  · rintro rfl
    obtain ⟨x, hx, hxk, rfl⟩ := hka
    obtain ⟨y, hy, hyk, he⟩ := hkb
    have hxy : x = y :=
      List.inj_on_of_nodup_map (hsound.invariant hd hs).1.openedOnce.ids hx hy he.symm
    rw [hxy, hyk] at hxk
    exact (Option.some.inj hxk).symm
  · intro hk
    rw [show a.uniqueKey = b.uniqueKey from hk] at hka
    exact hka.unique hkb

end runs

/-- Two processes open the same logical trade on a signal. -/
def twoOpens (_ : Fin 2) : Call :=
  .openTrade {
    variantId := "jplus", sleeveName := "ema_btc", asset := "BTC", direction := .long
    entryPrice := 100, allocationPct := 10, now := 0
    signalTimeIso := some "2024-02-29T00:00:00+00:00" }

/-- The second process returns the id that the first one has minted. -/
theorem opened_exactly_once_twoOpens :
    ∃ s, Sys.Reach (.init empty (progs quietEnv twoOpens)) s ∧ s.Done 0 (.id "SJ-0001") ∧
      s.Done 1 (.id "SJ-0001") ∧ s.committed.OpenedOnce := by
  have hrun : ((Sys.init empty (progs quietEnv twoOpens)).steps
      (List.replicate 7 0 ++ List.replicate 3 1)).map (fun s =>
      (s.writer.isNone, (s.proc 0).result?, (s.proc 1).result?)) =
      some (true, some (.id "SJ-0001"), some (.id "SJ-0001")) := by decide +kernel
  obtain ⟨s, hs, he⟩ := Option.map_eq_some_iff.mp hrun
  simp only [Prod.mk.injEq] at he
  obtain ⟨hw, h0, h1⟩ := he
  have hnot := Sys.not_holds_of_none (Option.isNone_iff_eq_none.mp hw)
  have hreach := Sys.Reach.of_steps .refl hs
  exact ⟨s, hreach, ⟨Prog.eq_ret_of_result? h0, hnot 0⟩, ⟨Prog.eq_ret_of_result? h1, hnot 1⟩,
    (opened_exactly_once Minted.empty (hreach.crashes _)).1⟩

end P300
