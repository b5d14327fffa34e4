import Mathlib.Data.Int.ConditionallyCompleteOrder
import Mathlib.Data.List.Nodup
import Mathlib.Data.List.Sort
import Mathlib.Data.String.Basic
import P300.Calendar

/-!
# The windows of the R4 bot

`bots/r4/windows.py`: the windows that open on a day, and the listing of the next ones. A window may
span midnight, but the listing starts its scan on the day of its instant, so it misses the window
that opened the evening before and is still open. A scan beyond the dates of `datetime` raises.
-/

namespace P300

/-! ## Hours -/

/-- `day.replace(hour=hour, minute=0, second=0, microsecond=0)` -/
def atHour (date hour : Int) : Time := date * 86_400_000_000 + hour * 3_600_000_000

/-- `now.hour` -/
def hourOf (t : Time) : Int := t % 86_400_000_000 / 3_600_000_000

section Hours

variable {t date hour : Int}

theorem utcDate_atHour (h0 : 0 ≤ hour) (h24 : hour < 24) : utcDate (atHour date hour) = date := by
  have h : (date * 86_400_000_000 + hour * 3_600_000_000) / 86_400_000_000 = date := by omega
  exact h

theorem hourOf_atHour (h0 : 0 ≤ hour) (h24 : hour < 24) : hourOf (atHour date hour) = hour := by
  have h : (date * 86_400_000_000 + hour * 3_600_000_000) % 86_400_000_000 / 3_600_000_000 =
      hour := by
    omega
  exact h

theorem atHour_le_iff : atHour (utcDate t) hour ≤ t ↔ hour ≤ hourOf t := by
  have h : t / 86_400_000_000 * 86_400_000_000 + hour * 3_600_000_000 ≤ t ↔
      hour ≤ t % 86_400_000_000 / 3_600_000_000 := by omega
  exact h

theorem lt_atHour_iff : t < atHour (utcDate t) hour ↔ hourOf t < hour := by
  rw [← not_le, atHour_le_iff, not_le]

theorem lt_atHour_succ (t : Int) (h0 : 0 ≤ hour) : t < atHour (utcDate t + 1) hour := by
  have h : t < (t / 86_400_000_000 + 1) * 86_400_000_000 + hour * 3_600_000_000 := by omega
  exact h

theorem utcDate_le_of_lt_atHour (h24 : hour < 24) (h : t < atHour date hour) :
    utcDate t ≤ date := by
  have ht : t < date * 86_400_000_000 + hour * 3_600_000_000 := h
  have hdate : t / 86_400_000_000 ≤ date := by omega
  exact hdate

theorem atHour_lt_atHour_iff {date' : Int} (h0 : 0 ≤ hour) (h24 : hour < 24) :
    atHour date hour < atHour date' 0 ↔ date < date' := by
  have h : date * 86_400_000_000 + hour * 3_600_000_000 <
      date' * 86_400_000_000 + 0 * 3_600_000_000 ↔
      date < date' := by omega
  exact h

end Hours

/-! ## Windows -/

/-- The strategies of `bots/r4/strategy/config.py`. -/
inductive R4Strategy
  | btc
  | eth
  | btcV2
  | ethV2
  deriving DecidableEq

namespace R4Strategy

/-- The name in `trades.strategy`. -/
def name : R4Strategy → String
  | btc => "JPLUS_R4_BTC"
  | eth => "JPLUS_R4_ETH"
  | btcV2 => "JPLUS_R4_BTC_V2"
  | ethV2 => "JPLUS_R4_ETH_V2"

def entryHour : R4Strategy → Int
  | btc => 6
  | eth => 20
  | btcV2 => 4
  | ethV2 => 4

def exitHour : R4Strategy → Int
  | btc => 18
  | eth => 20
  | btcV2 => 14
  | ethV2 => 14

/-- `HOLD_HOURS` -/
def holdHours : R4Strategy → Int
  | btc => btc.exitHour - btc.entryHour
  | eth => 24 - eth.entryHour + eth.exitHour
  | btcV2 => btcV2.exitHour - btcV2.entryHour
  | ethV2 => ethV2.exitHour - ethV2.entryHour

/-- `ASSET` -/
def asset : R4Strategy → String
  | btc => "BTC"
  | eth => "ETH"
  | btcV2 => "BTC"
  | ethV2 => "ETH"

end R4Strategy

structure R4Window where
  strategy : R4Strategy
  asset : String
  openUtc : Time
  closeUtc : Time
  deriving DecidableEq

/-- `window_open_for` -/
def windowOpenFor (strategy : R4Strategy) (exitDt : Time) : Time :=
  exitDt - strategy.holdHours * 3_600_000_000

/-- `_w` -/
def r4Window (strategy : R4Strategy) (day entryHour : Int) : R4Window :=
  let openDt := atHour day entryHour
  ⟨strategy, strategy.asset, openDt, openDt + strategy.holdHours * 3_600_000_000⟩

/-- `windows_on` -/
def windowsOn (day : Int) : List R4Window :=
  let wd := weekday day
  let dom := dayOfMonth day
  (if wd = 0 ∧ dom ≤ 14 then [r4Window .btc day R4Strategy.btc.entryHour] else []) ++
  (if wd = 1 ∧ dayOfMonth (day + 1) ≤ 14
    then [r4Window .eth day R4Strategy.eth.entryHour] else []) ++
  (if (wd = 2 ∨ wd = 4) ∧ dom ≤ 14 then
    [r4Window .btcV2 day R4Strategy.btcV2.entryHour, r4Window .ethV2 day R4Strategy.ethV2.entryHour]
  else [])

/-- The order of the listing: by the opening, then by the strategy's name. -/
def windowLe (a b : R4Window) : Prop :=
  a.openUtc < b.openUtc ∨ (a.openUtc = b.openUtc ∧ a.strategy.name ≤ b.strategy.name)

instance : DecidableRel windowLe := fun _ _ => inferInstanceAs (Decidable (_ ∨ _))

/-- The window is of a strategy that the filter keeps. -/
def KeepsStrategy (strategies : Option (List String)) (strategy : R4Strategy) : Prop :=
  ∀ names ∈ strategies, strategy.name ∈ names

instance (strategies : Option (List String)) (strategy : R4Strategy) :
    Decidable (KeepsStrategy strategies strategy) := inferInstanceAs (Decidable (∀ _ ∈ _, _))

/-- What the listing takes of the windows of `days` days from `day0` on. -/
def scanWindows (now : Time) (strategies : Option (List String)) (day0 : Int) (days : ℕ) :
    List R4Window :=
  (List.range days).flatMap fun i : ℕ =>
    (windowsOn (day0 + i)).filter fun w => now < w.closeUtc ∧ KeepsStrategy strategies w.strategy

/-- The days of the scan that starts at `day0` are dates that `datetime` can hold. -/
def Scannable (day0 : Int) (days : ℕ) : Prop := ∀ i : ℕ, i < days → InRange (day0 + i)

instance (day0 : Int) (days : ℕ) : Decidable (Scannable day0 days) :=
  inferInstanceAs (Decidable (∀ i : ℕ, i < days → InRange (day0 + i)))

/-- `next_windows`; a day of the scan after the year 9999 raises. -/
def nextWindows (now : Time) (n horizonDays : ℕ) (strategies : Option (List String)) :
    Except String (List R4Window) :=
  let day0 := utcDate now
  if Scannable day0 horizonDays then
    let out := scanWindows now strategies day0 horizonDays
    .ok ((out.insertionSort windowLe).take n)
  else .error "OverflowError"

/-! ## What a day lists -/

/-- The window of a strategy opens on the day. -/
def OpensOn : R4Strategy → Int → Prop
  | .btc, day => weekday day = 0 ∧ dayOfMonth day ≤ 14
  | .eth, day => weekday day = 1 ∧ dayOfMonth (day + 1) ≤ 14
  | .btcV2, day => (weekday day = 2 ∨ weekday day = 4) ∧ dayOfMonth day ≤ 14
  | .ethV2, day => (weekday day = 2 ∨ weekday day = 4) ∧ dayOfMonth day ≤ 14

section Windows

variable {day : Int} {w : R4Window} {s : R4Strategy}

theorem mem_windowsOn : w ∈ windowsOn day ↔ ∃ s, OpensOn s day ∧
    w = r4Window s day s.entryHour := by
  rw [windowsOn, List.mem_append, List.mem_append]
  constructor
  · rintro ((h | h) | h)
    · split at h
      · next hon => exact ⟨.btc, hon, List.mem_singleton.mp h⟩
      · cases h
    · split at h
      · next hon => exact ⟨.eth, hon, List.mem_singleton.mp h⟩
      · cases h
    · split at h
      · next hon =>
        rcases List.mem_pair.mp h with h | h
        · exact ⟨.btcV2, hon, h⟩
        · exact ⟨.ethV2, hon, h⟩
      · cases h
  · rintro ⟨s, hon, rfl⟩
    cases s with
    | btc =>
      obtain ⟨hwd, hdom⟩ := hon
      exact .inl (.inl (by rw [if_pos ⟨hwd, hdom⟩]; exact List.mem_singleton_self _))
    | eth =>
      obtain ⟨hwd, hdom⟩ := hon
      exact .inl (.inr (by rw [if_pos ⟨hwd, hdom⟩]; exact List.mem_singleton_self _))
    | btcV2 =>
      obtain ⟨hwd, hdom⟩ := hon
      exact .inr (by rw [if_pos ⟨hwd, hdom⟩]; exact List.mem_cons_self)
    | ethV2 =>
      obtain ⟨hwd, hdom⟩ := hon
      refine .inr ?_
      rw [if_pos ⟨hwd, hdom⟩]
      exact List.mem_cons_of_mem _ (List.mem_singleton_self _)

theorem windowsOn_nodup (day : Int) : (windowsOn day).Nodup := by
  refine List.Nodup.of_map R4Window.strategy ?_
  rw [windowsOn]
  split <;> split <;> split <;> simp [r4Window]

theorem utcDate_openUtc (hw : w ∈ windowsOn day) : utcDate w.openUtc = day := by
  obtain ⟨s, -, rfl⟩ := mem_windowsOn.mp hw
  cases s <;> exact utcDate_atHour (by decide) (by decide)

/-- A window is opened before the start of a later day, and of no earlier one. -/
theorem openUtc_lt_iff (hw : w ∈ windowsOn day) {date : Int} :
    w.openUtc < atHour date 0 ↔ day < date := by
  obtain ⟨s, -, rfl⟩ := mem_windowsOn.mp hw
  cases s <;> exact atHour_lt_atHour_iff (by decide) (by decide)

theorem closeUtc_eq (s : R4Strategy) (day : Int) : (r4Window s day s.entryHour).closeUtc =
    atHour (if s = .eth then day + 1 else day) s.exitHour := by
  have hclose : ∀ hour hold : Int, (r4Window s day hour).closeUtc =
      day * 86_400_000_000 + hour * 3_600_000_000 + s.holdHours * 3_600_000_000 := fun _ _ => rfl
  have hat : ∀ date hour : Int, atHour date hour = date * 86_400_000_000 + hour * 3_600_000_000 :=
    fun _ _ => rfl
  rw [hclose _ 0, hat]
  cases s with
  | btc =>
    change day * 86_400_000_000 + 6 * 3_600_000_000 + (18 - 6) * 3_600_000_000 =
      day * 86_400_000_000 + 18 * 3_600_000_000
    omega
  | eth =>
    change day * 86_400_000_000 + 20 * 3_600_000_000 + (24 - 20 + 20) * 3_600_000_000 =
      (day + 1) * 86_400_000_000 + 20 * 3_600_000_000
    omega
  | btcV2 | ethV2 =>
    change day * 86_400_000_000 + 4 * 3_600_000_000 + (14 - 4) * 3_600_000_000 =
      day * 86_400_000_000 + 14 * 3_600_000_000
    omega

/-- A window that is still open was opened on the day or, if it spans midnight, the day before. -/
theorem day_of_open (hw : w ∈ windowsOn day) {now : Time} (hopen : now < w.closeUtc) :
    utcDate now ≤ day ∨ (w.strategy = .eth ∧ day = utcDate now - 1 ∧ hourOf now < 20) := by
  obtain ⟨s, -, rfl⟩ := mem_windowsOn.mp hw
  rw [closeUtc_eq] at hopen
  by_cases hs : s = .eth
  · subst hs
    rw [if_pos rfl] at hopen
    have hdate := utcDate_le_of_lt_atHour (by decide) hopen
    rcases lt_or_eq_of_le hdate with hlt | heq
    · exact .inl (by omega)
    · rw [← heq, lt_atHour_iff] at hopen
      exact .inr ⟨rfl, by omega, hopen⟩
  · rw [if_neg hs] at hopen
    refine .inl (utcDate_le_of_lt_atHour ?_ hopen)
    cases s <;> decide

end Windows

/-! ## The listing -/

instance : IsTrans R4Window windowLe where
  trans a b c hab hbc := by
    rcases hab with hab | ⟨hab, hab'⟩
    · rcases hbc with hbc | ⟨hbc, _⟩
      · exact .inl (lt_trans hab hbc)
      · exact .inl (hbc ▸ hab)
    · rcases hbc with hbc | ⟨hbc, hbc'⟩
      · exact .inl (hab ▸ hbc)
      · exact .inr ⟨hab.trans hbc, hab'.trans hbc'⟩

instance : Std.Total windowLe where
  total a b := by
    rcases lt_trichotomy a.openUtc b.openUtc with h | h | h
    · exact .inl (.inl h)
    · rcases le_total a.strategy.name b.strategy.name with hn | hn
      · exact .inl (.inr ⟨h, hn⟩)
      · exact .inr (.inr ⟨h.symm, hn⟩)
    · exact .inr (.inl h)

section Scan

variable {now : Time} {strategies : Option (List String)} {w : R4Window}

theorem mem_scanWindows {day0 : Int} {days : ℕ} : w ∈ scanWindows now strategies day0 days ↔
    ∃ day, day0 ≤ day ∧ day < day0 + days ∧ w ∈ windowsOn day ∧ now < w.closeUtc ∧
      KeepsStrategy strategies w.strategy := by
  rw [scanWindows, List.mem_flatMap]
  constructor
  · rintro ⟨i, hi, hw⟩
    obtain ⟨hw, hkept⟩ := List.mem_filter.mp hw
    have hi := List.mem_range.mp hi
    exact ⟨day0 + i, by omega, by omega, hw, of_decide_eq_true hkept⟩
  · rintro ⟨day, hle, hlt, hw, hkept⟩
    obtain ⟨i, hi⟩ := Int.eq_ofNat_of_zero_le (sub_nonneg.mpr hle)
    obtain rfl : day = day0 + (i : ℕ) := by omega
    exact ⟨i, List.mem_range.mpr (by omega), List.mem_filter.mpr ⟨hw, decide_eq_true hkept⟩⟩

theorem nodup_scanWindows (day0 : Int) (days : ℕ) :
    (scanWindows now strategies day0 days).Nodup := by
  refine List.nodup_flatMap.mpr ⟨fun i _ => (windowsOn_nodup _).filter _, ?_⟩
  refine List.nodup_range.imp fun {i j} hne => List.disjoint_left.mpr fun w hi hj => hne ?_
  have hi := utcDate_openUtc (List.mem_of_mem_filter hi)
  have hj := utcDate_openUtc (List.mem_of_mem_filter hj)
  omega

/-- The windows of the filter that close after `now` and open before the end of the horizon. -/
def Upcoming (now : Time) (horizonDays : ℕ) (strategies : Option (List String))
    (w : R4Window) : Prop :=
  ∃ day, w ∈ windowsOn day ∧ KeepsStrategy strategies w.strategy ∧ now < w.closeUtc ∧
    w.openUtc < atHour (utcDate now + horizonDays) 0

/-- All these windows, in the order of their openings. -/
structure IsListing (now : Time) (horizonDays : ℕ) (strategies : Option (List String))
    (ws : List R4Window) : Prop where
  nodup : ws.Nodup
  sorted : ws.Pairwise fun w w' => w.openUtc ≤ w'.openUtc
  mem : ∀ w, w ∈ ws ↔ Upcoming now horizonDays strategies w

/-- A window of the filter is open that was opened the day before. -/
def OpenSinceYesterday (now : Time) (strategies : Option (List String)) : Prop :=
  weekday (utcDate now) = 2 ∧ dayOfMonth (utcDate now) ≤ 14 ∧ hourOf now < 20 ∧
    KeepsStrategy strategies .eth

/-- The scan that starts a day earlier finds all. -/
theorem isListing_scan (now : Time) (horizonDays : ℕ) (strategies : Option (List String)) :
    IsListing now horizonDays strategies
      ((scanWindows now strategies (utcDate now - 1) (horizonDays + 1)).insertionSort
        windowLe) where
  nodup := (List.perm_insertionSort windowLe _).nodup_iff.mpr (nodup_scanWindows _ _)
  sorted :=
    (List.pairwise_insertionSort windowLe _).imp fun h => h.elim le_of_lt fun h => le_of_eq h.1
  mem w := by
    rw [(List.perm_insertionSort windowLe _).mem_iff, mem_scanWindows]
    constructor
    · rintro ⟨day, -, hlt, hw, hclose, hkeeps⟩
      exact ⟨day, hw, hkeeps, hclose, (openUtc_lt_iff hw).mpr (by push_cast at hlt; omega)⟩
    · rintro ⟨day, hw, hkeeps, hclose, hopen⟩
      have hlt := (openUtc_lt_iff hw).mp hopen
      have hge := day_of_open hw hclose
      refine ⟨day, ?_, by push_cast; omega, hw, hclose, hkeeps⟩
      rcases hge with hge | ⟨-, hday, -⟩ <;> omega

/-- The window of the day before is the only one that the scan misses. -/
theorem scanWindows_yesterday (h : ¬ OpenSinceYesterday now strategies) (days : ℕ) :
    scanWindows now strategies (utcDate now - 1) (days + 1) =
      scanWindows now strategies (utcDate now) days := by
  have hnone : ((windowsOn (utcDate now - 1)).filter fun w =>
      now < w.closeUtc ∧ KeepsStrategy strategies w.strategy) = [] := by
    refine List.filter_eq_nil_iff.mpr fun w hw hkept => h ?_
    obtain ⟨hclose, hkeeps⟩ := of_decide_eq_true hkept
    rcases day_of_open hw hclose with hle | ⟨heth, _, hhour⟩
    · omega
    obtain ⟨s, hon, rfl⟩ := mem_windowsOn.mp hw
    have hs : s = .eth := heth
    subst hs
    obtain ⟨hwd, hdom⟩ := hon
    rw [sub_add_cancel] at hdom
    refine ⟨?_, hdom, hhour, hkeeps⟩
    rw [weekday] at hwd ⊢
    omega
  rw [scanWindows, List.range_succ_eq_map, List.flatMap_cons, List.flatMap_map,
    Nat.cast_zero, add_zero, hnone, List.nil_append, scanWindows]
  refine List.flatMap_congr fun i _ => ?_
  rw [(by push_cast; omega : utcDate now - 1 + ((i + 1 : ℕ) : Int) = utcDate now + i)]

theorem eth_upcoming (h : OpenSinceYesterday now strategies) (horizonDays : ℕ) :
    Upcoming now horizonDays strategies
      (r4Window .eth (utcDate now - 1) R4Strategy.eth.entryHour) := by
  obtain ⟨hwd, hdom, hhour, hkeeps⟩ := h
  have hmem : r4Window .eth (utcDate now - 1) R4Strategy.eth.entryHour ∈ windowsOn
      (utcDate now - 1) := by
    refine mem_windowsOn.mpr ⟨.eth, ⟨?_, by rwa [sub_add_cancel]⟩, rfl⟩
    rw [weekday] at hwd ⊢
    omega
  refine ⟨utcDate now - 1, hmem, hkeeps, ?_, (openUtc_lt_iff hmem).mpr (by omega)⟩
  rw [closeUtc_eq, if_pos rfl, sub_add_cancel, lt_atHour_iff]
  exact hhour

theorem nextWindows_ok {n horizonDays : ℕ} {ws : List R4Window}
    (h : nextWindows now n horizonDays strategies = .ok ws) :
    Scannable (utcDate now) horizonDays ∧
      ws = ((scanWindows now strategies (utcDate now) horizonDays).insertionSort windowLe).take
        n := by
  dsimp only [nextWindows] at h
  split at h
  · next hscannable =>
    cases h
    exact ⟨hscannable, rfl⟩
  · cases h

/-- The window of the day before opens first of all, and the listing does not have it. -/
theorem nextWindows_incomplete {n : ℕ} (hn : n ≠ 0) (h : OpenSinceYesterday now strategies)
    (horizonDays : ℕ) : ¬ ∃ ws, IsListing now horizonDays strategies ws ∧
      nextWindows now n horizonDays strategies = .ok (ws.take n) := by
  rintro ⟨ws, hws, hlisted⟩
  have htake := (nextWindows_ok hlisted).2
  have hmem := (hws.mem _).mpr (eth_upcoming h horizonDays)
  have hsorted := hws.sorted
  cases ws with
  | nil => cases hmem
  | cons first ws =>
    obtain ⟨m, rfl⟩ := Nat.exists_eq_succ_of_ne_zero hn
    have hfirst : first ∈ ((scanWindows now strategies (utcDate now) horizonDays).insertionSort
        windowLe).take (m + 1) := by
      rw [← htake, List.take_succ_cons]
      exact List.mem_cons_self
    have hscan := (List.perm_insertionSort windowLe _).mem_iff.mp (List.mem_of_mem_take hfirst)
    obtain ⟨day, hday, -, hw, -, -⟩ := mem_scanWindows.mp hscan
    have hlate : ¬ first.openUtc < atHour (utcDate now) 0 := by
      rw [openUtc_lt_iff hw]
      omega
    have hearly : (r4Window .eth (utcDate now - 1) R4Strategy.eth.entryHour).openUtc <
        atHour (utcDate now) 0 := (atHour_lt_atHour_iff (by decide) (by decide)).mpr (by omega)
    have hle : first.openUtc ≤ (r4Window .eth (utcDate now - 1)
        R4Strategy.eth.entryHour).openUtc := by
      rcases List.mem_cons.mp hmem with heq | hmem
      · rw [heq]
      · exact (List.pairwise_cons.mp hsorted).1 _ hmem
    exact hlate (lt_of_le_of_lt hle hearly)

/-- The listing is the first `n` of all windows of the filter that close after `now` and open within
the horizon, exactly if the horizon ends by the year 9999 and either nothing is asked for or none of
the windows was opened the day before. -/
theorem nextWindows_complete_iff (now : Time) (n horizonDays : ℕ)
    (strategies : Option (List String)) :
    (∃ ws, IsListing now horizonDays strategies ws ∧
      nextWindows now n horizonDays strategies = .ok (ws.take n)) ↔
      Scannable (utcDate now) horizonDays ∧ (n = 0 ∨ ¬ OpenSinceYesterday now strategies) := by
  constructor
  · rintro ⟨ws, hws, hlisted⟩
    refine ⟨(nextWindows_ok hlisted).1, ?_⟩
    by_contra hnot
    obtain ⟨hn, hyesterday⟩ := not_or.mp hnot
    exact nextWindows_incomplete hn (not_not.mp hyesterday) horizonDays ⟨ws, hws, hlisted⟩
  · rintro ⟨hscannable, hcond⟩
    refine ⟨_, isListing_scan now horizonDays strategies, ?_⟩
    dsimp only [nextWindows]
    rw [if_pos hscannable]
    rcases hcond with rfl | hnot
    · rw [List.take_zero, List.take_zero]
    · rw [scanWindows_yesterday hnot]

end Scan

/-- Wednesday 2026-08-05, 12:00 UTC. -/
def wednesdayNoon : Time := atHour 20_670 12

example : (nextWindows wednesdayNoon 1 45 none).map (·.map (·.strategy)) = .ok [.btcV2] := by
  decide +kernel

/-- The window of Tuesday evening is open on Wednesday at noon, and the listing leaves it out. -/
theorem nextWindows_misses_open_window : ¬ ∃ ws, IsListing wednesdayNoon 45 none ws ∧
    nextWindows wednesdayNoon 6 45 none = .ok (ws.take 6) :=
  nextWindows_incomplete (by decide) (by rw [OpenSinceYesterday, KeepsStrategy]; decide +kernel) 45

end P300
