import Mathlib.Data.List.DropRight
import Mathlib.Data.Prod.Lex
import Mathlib.Data.String.Basic
import P300.Calendar
import P300.Ledger.Schema
import P300.Lib.FirstPerKey

/-!
# Closed trades as evidence

`_id_key` and `dedupe` of `strategies/support/evidence.py`. A closed trade is a dictionary of
`closed_trades`; the entry and the exit are instants where their texts are timestamps. A number of
any length is read.
-/

namespace P300

/-- A dictionary of `closed_trades`. -/
structure ClosedTrade where
  id : String
  variant : String
  strategy : String
  direction : String
  entryTime : Option String
  exitTime : Option String
  pnlUsdt : Option ℚ
  entryDt : Option Time
  exitDt : Option Time
  deriving DecidableEq

/-- `_BIG_ID` -/
def bigId : ℕ := 10 ^ 18

/-- `re.search(r"(\d+)$", text)`; the end may stand before a newline. -/
def trailingDigits (text : List Char) : List Char :=
  (if text.getLast? = some '\n' then text.dropLast else text).rtakeWhile fun c => (decimal c).isSome

/-- `_id_key` -/
def idKey (tradeId : String) : ℕ ×ₗ String :=
  let digits := trailingDigits tradeId.toList
  toLex (if digits = [] then bigId else intOfDigits digits, tradeId)

/-- `dt.replace(second=0, microsecond=0)` -/
def toMinute (t : Time) : Time := t - t % 60_000_000

/-- The keys of `dedupe`. -/
inductive DedupeKey
  | unreadable (id : String)
  | entry (variant strategy direction : String) (minute : Time)
  deriving DecidableEq

def ClosedTrade.dedupeKey (t : ClosedTrade) : DedupeKey :=
  match t.entryDt with
  | none => .unreadable t.id
  | some dt => .entry t.variant t.strategy t.direction (toMinute dt)

/-- `dedupe` -/
def dedupe (trades : List ClosedTrade) : List ClosedTrade × ℕ :=
  let kept := FirstPerKey.firsts ClosedTrade.dedupeKey
    (FirstPerKey.sorted (fun t => idKey t.id) trades)
  (kept, trades.length - kept.length)

/-! ## The order of the ids -/

/-- The digits at the end of a text. -/
theorem trailingDigits_append {front digits : List Char} (hne : digits ≠ [])
    (hdigits : ∀ c ∈ digits, c.isDigit) (hfront : ∀ c ∈ front.getLast?, decimal c = none) :
    trailingDigits (front ++ digits) = digits := by
  have hdec : ∀ c ∈ digits.reverse, (decimal c).isSome = true := by
    intro c hc
    rw [decimal_of_isDigit (hdigits c (List.mem_reverse.mp hc))]
    rfl
  have hlast : (front ++ digits).getLast? ≠ some '\n' := by
    intro h
    rw [List.getLast?_append_of_ne_nil _ hne] at h
    exact absurd (hdigits _ (List.mem_of_getLast? h)) (by decide)
  rw [trailingDigits, if_neg hlast, List.rtakeWhile, List.reverse_append,
    List.takeWhile_append_of_pos hdec]
  have hstop : front.reverse.takeWhile (fun c => (decimal c).isSome) = [] := by
    cases hback : front.reverse with
    | nil => rfl
    | cons c back =>
      have hnone : decimal c = none := hfront c (by rw [List.getLast?_eq_head?_reverse, hback]; rfl)
      rw [List.takeWhile_cons_of_neg (by rw [hnone]; decide)]
  rw [hstop, List.append_nil, List.reverse_reverse]

/-- An id that ends in a number is ranked by the number. -/
theorem idKey_append {front digits : List Char} (hne : digits ≠ [])
    (hdigits : ∀ c ∈ digits, c.isDigit) (hfront : ∀ c ∈ front.getLast?, decimal c = none) :
    idKey (.ofList (front ++ digits)) =
      toLex (Nat.ofDigitChars 10 digits 0, .ofList (front ++ digits)) := by
  rw [idKey, String.toList_ofList, trailingDigits_append hne hdigits hfront, if_neg hne,
    intOfDigits_eq hdigits]

theorem idKey_sjId (n : ℕ) : idKey (Ledger.sjId n) = toLex (n, Ledger.sjId n) := by
  have hne : zeroPad 4 n ≠ [] := List.append_ne_nil_of_right_ne_nil _ Nat.toDigits_ne_nil
  have hdash : ∀ c ∈ ['S', 'J', '-'].getLast?, decimal c = none := by
    intro c hc
    cases hc
    decide
  have hkey := idKey_append hne (fun c hc => isDigit_of_mem_zeroPad hc) hdash
  rw [ofDigitChars_zeroPad] at hkey
  exact hkey

/-- The ids of the ledger are in the order of their numbers. -/
theorem idKey_sjId_lt_iff {m n : ℕ} : idKey (Ledger.sjId m) < idKey (Ledger.sjId n) ↔ m < n := by
  rw [idKey_sjId, idKey_sjId, Prod.Lex.toLex_lt_toLex]
  constructor
  · rintro (h | ⟨rfl, h⟩)
    · exact h
    · exact absurd h (lt_irrefl _)
  · exact .inl

/-! ## One row of each entry -/

/-- The UTC minute of the entry, if the entry can be read. -/
def ClosedTrade.entryMinute (t : ClosedTrade) : Option Int := t.entryDt.map (· / 60_000_000)

/-- The rows book one entry. -/
def ClosedTrade.SameEntry (t s : ClosedTrade) : Prop :=
  t.variant = s.variant ∧ t.strategy = s.strategy ∧ t.direction = s.direction ∧
    t.entryMinute = s.entryMinute

instance (t s : ClosedTrade) : Decidable (t.SameEntry s) :=
  inferInstanceAs (Decidable (_ ∧ _ ∧ _ ∧ _))

/-- What the deduplication keeps, and the number of rows that it drops. -/
structure Deduped (trades kept : List ClosedTrade) (nDropped : ℕ) : Prop where
  subset : ∀ t ∈ kept, t ∈ trades
  nodup : kept.Nodup
  lowest : ∀ t ∈ trades, t.entryDt ≠ none → ∃ r, kept.filter (·.SameEntry t) = [r] ∧
    ∀ s ∈ trades, s.SameEntry t → idKey r.id ≤ idKey s.id
  unreadable : ∀ t ∈ trades, t.entryDt = none → t ∈ kept
  dropped : nDropped = trades.countP fun t => t ∉ kept

section dedupe

variable {trades : List ClosedTrade} {t s : ClosedTrade}

theorem toMinute_eq_iff {dt dt' : Int} :
    toMinute dt = toMinute dt' ↔ dt / 60_000_000 = dt' / 60_000_000 := by
  change dt - dt % 60_000_000 = dt' - dt' % 60_000_000 ↔ _
  omega

theorem dedupeKey_eq_iff (ht : t.entryDt ≠ none) : s.dedupeKey = t.dedupeKey ↔ s.SameEntry t := by
  obtain ⟨dt, hdt⟩ := Option.ne_none_iff_exists'.mp ht
  unfold ClosedTrade.dedupeKey ClosedTrade.SameEntry ClosedTrade.entryMinute
  rw [hdt]
  cases s.entryDt with
  | none => simp
  | some dt' => simp [toMinute_eq_iff]

theorem eq_of_dedupeKey_eq (hids : (trades.map (·.id)).Nodup) (ht : t ∈ trades) (hs : s ∈ trades)
    (hnone : t.entryDt = none) (hkey : s.dedupeKey = t.dedupeKey) : s = t := by
  unfold ClosedTrade.dedupeKey at hkey
  rw [hnone] at hkey
  cases hdt : s.entryDt with
  | none =>
    rw [hdt] at hkey
    exact List.inj_on_of_nodup_map hids hs ht (DedupeKey.unreadable.inj hkey)
  | some dt =>
    rw [hdt] at hkey
    cases hkey

/-- Distinct ids have distinct sort keys. -/
theorem nodup_idKey (hids : (trades.map (·.id)).Nodup) :
    (trades.map fun t => idKey t.id).Nodup := by
  refine List.Nodup.of_map (fun k => (ofLex k).2) ?_
  rw [List.map_map]
  exact hids

theorem length_sub_length {kept : List ClosedTrade} (htrades : trades.Nodup) (hkept : kept.Nodup)
    (hsub : ∀ t ∈ kept, t ∈ trades) :
    trades.length - kept.length = trades.countP fun t => t ∉ kept := by
  have hperm : (trades.filter fun t => t ∈ kept).Perm kept := by
    refine (List.perm_ext_iff_of_nodup (htrades.filter _) hkept).mpr fun t => ?_
    rw [List.mem_filter, decide_eq_true_iff]
    exact and_iff_right_of_imp (hsub t)
  have hcount : trades.countP (fun t => t ∈ kept) = kept.length := by
    rw [List.countP_eq_length_filter, hperm.length_eq]
  rw [List.length_eq_countP_add_countP (fun t => decide (t ∈ kept)) (l := trades), hcount,
    Nat.add_sub_cancel_left]
  simp only [decide_not, Bool.not_eq_true, Bool.decide_eq_false]

theorem dedupe_deduped (hids : (trades.map (·.id)).Nodup) :
    Deduped trades (dedupe trades).1 (dedupe trades).2 := by
  have hperm := FirstPerKey.sorted_perm (fun t : ClosedTrade => idKey t.id) trades
  have hsub := FirstPerKey.firsts_sublist ClosedTrade.dedupeKey
    (FirstPerKey.sorted (fun t => idKey t.id) trades)
  have hexists : ∀ t ∈ trades, ∃ r ∈ (dedupe trades).1, r.dedupeKey = t.dedupeKey :=
    fun t ht => FirstPerKey.exists_mem_firsts (hperm.symm.subset ht)
  have hkept : ∀ t ∈ (dedupe trades).1, t ∈ trades := fun t ht => hperm.subset (hsub.subset ht)
  have hnodup : (dedupe trades).1.Nodup :=
    (FirstPerKey.nodup_keys_firsts ClosedTrade.dedupeKey _).of_map
  refine ⟨hkept, hnodup, fun t ht hdt => ?_, fun t ht hdt => ?_, ?_⟩
  · obtain ⟨r, hr, hkey⟩ := hexists t ht
    refine ⟨r, ?_, fun s hs hst => ?_⟩
    · refine (List.filter_congr fun s _ => ?_).trans (FirstPerKey.filter_firsts hr)
      rw [decide_eq_decide, ← dedupeKey_eq_iff hdt, hkey]
    · rw [← dedupeKey_eq_iff hdt, ← hkey] at hst
      exact FirstPerKey.least_of_mem_firsts _ (fun t : ClosedTrade => idKey t.id) hr hs hst
  · obtain ⟨r, hr, hkey⟩ := hexists t ht
    exact eq_of_dedupeKey_eq hids ht (hkept r hr) hdt hkey ▸ hr
  · exact length_sub_length hids.of_map hnodup hkept

/-- Deduplication is canonical. -/
theorem dedupe_canonical (hids : (trades.map (·.id)).Nodup) :
    (∀ trades' : List ClosedTrade, trades'.Perm trades → dedupe trades' = dedupe trades) ∧
      Deduped trades (dedupe trades).1 (dedupe trades).2 ∧
      dedupe (dedupe trades).1 = ((dedupe trades).1, 0) ∧
      ∀ m n, idKey (Ledger.sjId m) < idKey (Ledger.sjId n) ↔ m < n := by
  refine ⟨fun trades' hperm => ?_, dedupe_deduped hids, ?_, fun m n => idKey_sjId_lt_iff⟩
  · rw [dedupe, dedupe, FirstPerKey.sorted_eq_of_perm (nodup_idKey hids) hperm, hperm.length_eq]
  · have hidem := FirstPerKey.firsts_sorted_firsts ClosedTrade.dedupeKey
      (fun t => idKey t.id) trades
    have hkept : (dedupe (dedupe trades).1).1 = (dedupe trades).1 := hidem
    refine Prod.ext hkept ?_
    calc (dedupe (dedupe trades).1).2
        = (dedupe trades).1.length - (dedupe (dedupe trades).1).1.length := rfl
      _ = 0 := by rw [hkept, Nat.sub_self]

/-- A signal booked twice, over the last four-digit id, and a row without a readable entry. -/
def bookedTwice : List ClosedTrade :=
  [⟨"SJ-10000", "bot_chento_v3_v1", "CHENTO", "LONG", some "2026-09-01T12:00:40+00:00", none,
      some (-7), some 1_788_264_040_000_000, none⟩,
    ⟨"SJ-9998", "bot_chento_v3_v1", "CHENTO", "LONG", some "soon", none, some 1, none, none⟩,
    ⟨"SJ-9999", "bot_chento_v3_v1", "CHENTO", "LONG", some "2026-09-01T14:00:01+02:00", none,
      some 3, some 1_788_264_001_000_000, none⟩]

theorem dedupe_canonical_bookedTwice :
    ((dedupe bookedTwice).1.map (·.id), (dedupe bookedTwice).2) = (["SJ-9998", "SJ-9999"], 1) ∧
      (∀ trades' : List ClosedTrade, trades'.Perm bookedTwice →
        dedupe trades' = dedupe bookedTwice) ∧
      Deduped bookedTwice (dedupe bookedTwice).1 (dedupe bookedTwice).2 := by
  have h := @dedupe_canonical bookedTwice (by decide)
  exact ⟨by decide +kernel, h.1, h.2.1⟩

end dedupe

end P300
