import Mathlib.Data.Prod.Lex
import Mathlib.Data.String.Basic
import P300.Calendar
import P300.Lib.Retention

/-!
# Retention of the database copies

`backup.py`: a run leaves a copy named by its date, and `_prune` deletes the copies that are neither
among the newest nor among the newest of a Sunday, except old ones. A prune decides from the names
that earlier prunes have left.
-/

namespace P300

open Retention

/-! ## Names -/

/-- The date of a copy. -/
abbrev CopyDate := {date : Int // InRange date}

/-- `f"prod-{stamp}.db"` with the stamp `%Y%m%d`. -/
def copyName (date : CopyDate) : String :=
  let pads := datePads date
  String.ofList ("prod-".toList ++ (pads.1 ++ (pads.2.1 ++ (pads.2.2 ++ ".db".toList))))

/-- The readings of `%m` at the front of a text, in the order in which they are tried. -/
def monthReadings (cs : List Char) : List (ℕ × List Char) :=
  ((readDigits 2 cs).filter fun r => 1 ≤ r.1 ∧ r.1 ≤ 12).toList ++
    ((readDigits 1 cs).filter fun r => 1 ≤ r.1).toList

/-- `3[0-1]|[1-2]\d|0[1-9]`, where `\d` is any decimal digit. -/
def twoDigitDay : List Char → Option (ℕ × List Char)
  | [] => none
  | c :: cs =>
    if c = '1' ∨ c = '2' then
      (readDecimals 1 cs).map fun r => (10 * (c.toNat - '0'.toNat) + r.1, r.2)
    else (readDigits 2 (c :: cs)).filter fun r => 1 ≤ r.1 ∧ r.1 ≤ 31

/-- The readings of `%d`; one digit may follow a blank. -/
def dayReadings (cs : List Char) : List (ℕ × List Char) :=
  (twoDigitDay cs).toList ++ ((readDigits 1 cs).filter fun r => 1 ≤ r.1).toList ++
    (([' '].isPrefixOf? cs).bind fun cs => (readDigits 1 cs).filter fun r => 1 ≤ r.1).toList

/-- The readings of `%m%d.db` of a whole text. -/
def monthDayReadings (cs : List Char) : List (ℕ × ℕ) :=
  (monthReadings cs).flatMap fun m => (dayReadings m.2).filterMap fun d =>
    if d.2 = ".db".toList then some (m.1, d.1) else none

/-- `_copy_date`: `datetime.strptime(f.name, "prod-%Y%m%d.db")`, `none` for a `ValueError`. -/
def copyDate (name : String) : Option CopyDate := do
  let cs ← "prod-".toList.isPrefixOf? name.toList
  let (year, cs) ← readDecimals 4 cs
  let (month, day) ← (monthDayReadings cs).head?
  let date := ofCivil year month day
  if h : InRange date ∧ civil date =
    ((year : Int), (month : Int), (day : Int)) then some ⟨date, h.1⟩
  else none

example : (copyDate "prod-2026914.db").map Subtype.val = some (ofCivil 2026 9 14) :=
  by decide +kernel
example : (copyDate "prod-backup.db").map Subtype.val = none := by decide +kernel

/-! ## Pruning -/

/-- `PRUNE_FROM` -/
def pruneFrom : Int := ofCivil 2026 9 14

/-- `sorted((d, f) for f in …)`: by date, then by name. -/
def datedLe (a b : CopyDate × String) : Prop := toLex a ≤ toLex b

instance : DecidableRel datedLe := fun a b => inferInstanceAs (Decidable (toLex a ≤ toLex b))

instance : Std.Total datedLe := ⟨fun a b => le_total (toLex a) (toLex b)⟩

instance : IsTrans (CopyDate × String) datedLe := ⟨fun _ _ _ => le_trans⟩

/-- `d.weekday() == 6` -/
def onSunday (date : CopyDate) : Bool := weekday date.1 = 6

/-- The copies in the directory, in order. -/
def dated (dir : List String) : List (CopyDate × String) :=
  (dir.filterMap fun f => (copyDate f).map fun d => (d, f)).insertionSort datedLe

/-- The names that `_prune` keeps. -/
def keepNames (keepDaily keepWeekly : ℕ) (dir : List String) : List String :=
  let files := (dated dir).map Prod.snd
  let sundays := ((dated dir).filter fun p => onSunday p.1).map Prod.snd
  files.drop (files.length - keepDaily) ++ sundays.drop (sundays.length - keepWeekly)

/-- `_prune` deletes this name. -/
def Prunes (keepDaily keepWeekly : ℕ) (dir : List String) (f : String) : Prop :=
  ∃ d, copyDate f = some d ∧ f ∉ keepNames keepDaily keepWeekly dir ∧ ¬ d.1 < pruneFrom

instance (keepDaily keepWeekly : ℕ) (dir : List String) (f : String) :
    Decidable (Prunes keepDaily keepWeekly dir f) :=
  match h : copyDate f with
  | none => isFalse (by rintro ⟨d, hd, -⟩; rw [h] at hd; cases hd)
  | some d => decidable_of_iff (f ∉ keepNames keepDaily keepWeekly dir ∧ ¬ d.1 < pruneFrom)
      ⟨fun hp => ⟨d, h, hp⟩, by rintro ⟨d', hd, hp⟩; rw [h] at hd; cases hd; exact hp⟩

/-- `_prune`: the directory afterwards, and the deleted names. -/
def prune (keepDaily keepWeekly : ℕ) (dir : List String) : List String × List String :=
  (dir.filter fun f => ¬ Prunes keepDaily keepWeekly dir f,
    ((dated dir).map Prod.snd).filter fun f => Prunes keepDaily keepWeekly dir f)

/-- A verified copy takes the place of one of the same day. -/
def takeCopy (date : CopyDate) (dir : List String) : List String :=
  if copyName date ∈ dir then dir else dir ++ [copyName date]

/-- Copies in sequence, each followed or not by a prune. -/
def backups (keepDaily keepWeekly : ℕ) (dir : List String) (runs : List (CopyDate × Bool)) :
    List String :=
  runs.foldl (fun dir run =>
    let dir := takeCopy run.1 dir
    if run.2 then (prune keepDaily keepWeekly dir).1 else dir) dir

/-! ## The names of the copies -/

theorem monthReadings_pad {month : ℕ} (h1 : 1 ≤ month) (h12 : month ≤ 12) (rest : List Char) :
    ∃ others, monthReadings (zeroPad 2 month ++ rest) = (month, rest) :: others := by
  rw [monthReadings, readDigits_zeroPad (by decide) (by omega)]
  exact ⟨_, by rw [Option.filter_some_pos (by simp [h1, h12])]; rfl⟩

/-- A day that is read as one of two ASCII digits. -/
theorem twoDigitDay_of_readDigits {cs : List Char} {r : ℕ × List Char}
    (h : readDigits 2 cs = some r) (h1 : 1 ≤ r.1) (h31 : r.1 ≤ 31) : twoDigitDay cs = some r := by
  match cs, h with
  | c :: d :: rest, h =>
    rw [twoDigitDay]
    split
    · rw [readDigits] at h
      split at h
      · next hdigits =>
        cases h
        have hd : d.isDigit := List.all_eq_true.mp hdigits.2 d (by simp)
        have hsecond : readDigits 1 (d :: rest) = some (Nat.ofDigitChars 10 [d] 0, rest) :=
          if_pos ⟨rfl, by simpa using hd⟩
        rw [readDecimals_of_readDigits hsecond, Option.map_some]
        simp [Nat.ofDigitChars_eq_foldl]
      · cases h
    · rw [h, Option.filter_some_pos (by simp [h1, h31])]

theorem dayReadings_pad {day : ℕ} (h1 : 1 ≤ day) (h31 : day ≤ 31) (rest : List Char) :
    ∃ others, dayReadings (zeroPad 2 day ++ rest) = (day, rest) :: others := by
  have hread : readDigits 2 (zeroPad 2 day ++ rest) = some (day, rest) :=
    readDigits_zeroPad (by decide) (by omega) rest
  exact ⟨_, by rw [dayReadings, twoDigitDay_of_readDigits hread h1 h31]; rfl⟩

theorem monthDayReadings_pad {month day : ℕ} (hm1 : 1 ≤ month) (hm12 : month ≤ 12) (hd1 : 1 ≤ day)
    (hd31 : day ≤ 31) :
    (monthDayReadings (zeroPad 2 month ++ (zeroPad 2 day ++ ".db".toList))).head? =
      some (month, day) := by
  obtain ⟨days, hdays⟩ := dayReadings_pad hd1 hd31 ".db".toList
  obtain ⟨months, hmonths⟩ := monthReadings_pad hm1 hm12 (zeroPad 2 day ++ ".db".toList)
  rw [monthDayReadings, hmonths, List.flatMap_cons, hdays, List.filterMap_cons, if_pos rfl]
  rfl

theorem toList_copyName (date : CopyDate) : (copyName date).toList = "prod-".toList ++
    ((datePads date).1 ++ ((datePads date).2.1 ++ ((datePads date).2.2 ++ ".db".toList))) :=
  String.toList_ofList ..

theorem copyDate_copyName (date : CopyDate) : copyDate (copyName date) = some date := by
  obtain ⟨date, h⟩ := date
  obtain ⟨hy, hy4⟩ := toNat_year h
  obtain ⟨hm, hm1, hm12⟩ := toNat_month date
  obtain ⟨hd, hd1, hd31⟩ := toNat_day date
  simp only [copyDate, toList_copyName, isPrefixOf?_append, datePads,
    readDecimals_zeroPad (by decide) hy4, monthDayReadings_pad hm1 hm12 hd1 hd31, hy, hm, hd,
    ofCivil_civil, Option.bind_eq_bind, Option.bind_some]
  exact dif_pos ⟨h, trivial⟩

theorem copyName_injective : Function.Injective copyName := fun d d' h => by
  have hparse := copyDate_copyName d'
  rw [← h, copyDate_copyName] at hparse
  exact Option.some.inj hparse

/-! ## The directory as a set of dates -/

/-- The directory holds the copies of the dates `s`, and other names. -/
structure Holds (others dir : List String) (s : Finset CopyDate) : Prop where
  nodup : dir.Nodup
  mem : ∀ f, f ∈ dir ↔ (∃ d ∈ s, copyName d = f) ∨ f ∈ others

/-- Names that are no copies. -/
def Foreign (others : List String) : Prop := ∀ f ∈ others, copyDate f = none

section Holds

variable {others dir : List String} {s : Finset CopyDate} (ho : Foreign others)
  (h : Holds others dir s)

include ho h

theorem Holds.mem_dated (p : CopyDate × String) : p ∈ dated dir ↔ p.1 ∈ s ∧ copyName p.1 = p.2 := by
  rw [dated, List.mem_insertionSort, List.mem_filterMap]
  constructor
  · rintro ⟨f, hf, hp⟩
    obtain ⟨d, hd, rfl⟩ := Option.map_eq_some_iff.mp hp
    rcases (h.mem f).mp hf with ⟨d', hd', rfl⟩ | hf
    · rw [copyDate_copyName] at hd
      cases hd
      exact ⟨hd', rfl⟩
    · rw [ho f hf] at hd
      cases hd
  · rintro ⟨hd, hname⟩
    refine ⟨p.2, (h.mem _).mpr (.inl ⟨p.1, hd, hname⟩), ?_⟩
    rw [← hname, copyDate_copyName, Option.map_some, hname]

theorem Holds.dated_sorted : ((dated dir).map Prod.fst).Pairwise (· < ·) := by
  have hnodup : (dated dir).Nodup := by
    refine (List.perm_insertionSort _ _).nodup_iff.mpr (h.nodup.filterMap fun f f' p hp hp' => ?_)
    obtain ⟨d, -, rfl⟩ := Option.map_eq_some_iff.mp hp
    obtain ⟨d', -, heq⟩ := Option.map_eq_some_iff.mp hp'
    exact (congrArg Prod.snd heq).symm
  have hdates : ((dated dir).map Prod.fst).Nodup := by
    refine hnodup.map_on fun p hp p' hp' heq => Prod.ext heq ?_
    rw [← ((h.mem_dated ho p).mp hp).2, ← ((h.mem_dated ho p').mp hp').2, heq]
  have hle : ((dated dir).map Prod.fst).Pairwise (· ≤ ·) := by
    rw [List.pairwise_map]
    exact (List.pairwise_insertionSort datedLe _).imp fun hab => Prod.Lex.monotone_fst _ _ hab
  exact (hle.and hdates).imp fun hab => lt_of_le_of_ne hab.1 hab.2

theorem Holds.dated_eq : dated dir = ((dated dir).map Prod.fst).map fun d => (d, copyName d) := by
  rw [List.map_map]
  refine (List.map_id'' (fun p => rfl) _).symm.trans (List.map_congr_left fun p hp => ?_)
  exact Prod.ext rfl ((h.mem_dated ho p).mp hp).2.symm

theorem Holds.toFinset_dated : ((dated dir).map Prod.fst).toFinset = s := by
  ext d
  rw [List.mem_toFinset, List.mem_map]
  constructor
  · rintro ⟨p, hp, rfl⟩
    exact ((h.mem_dated ho p).mp hp).1
  · intro hd
    exact ⟨(d, copyName d), (h.mem_dated ho _).mpr ⟨hd, rfl⟩, rfl⟩

omit ho h in
theorem mem_drop_map {dates : List CopyDate} (hs : dates.Pairwise (· < ·)) (n : ℕ) (d : CopyDate) :
    copyName d ∈ (dates.map copyName).drop ((dates.map copyName).length - n) ↔
      d ∈ newest n dates.toFinset := by
  rw [List.length_map, ← List.map_drop, List.mem_map_of_injective copyName_injective,
    mem_drop_iff hs]

theorem Holds.mem_keepNames (keepDaily keepWeekly : ℕ) (d : CopyDate) :
    copyName d ∈ keepNames keepDaily keepWeekly dir ↔
      d ∈ newest keepDaily s ∨ d ∈ newest keepWeekly (s.filter (onSunday ·)) := by
  have hsorted := h.dated_sorted ho
  have hfiles : (dated dir).map Prod.snd = ((dated dir).map Prod.fst).map copyName := by
    conv_lhs => rw [h.dated_eq ho, List.map_map]
    rfl
  have hsundays : ((dated dir).filter fun p => onSunday p.1).map Prod.snd =
      (((dated dir).map Prod.fst).filter onSunday).map copyName := by
    conv_lhs => rw [h.dated_eq ho, List.filter_map, List.map_map]
    rfl
  rw [keepNames, List.mem_append, hfiles, hsundays, mem_drop_map hsorted,
    mem_drop_map (hsorted.filter _), List.toFinset_filter, h.toFinset_dated ho]

end Holds

/-! ## Retention -/

/-- The copies that are kept: the newest, the newest of a Sunday, and the old ones. -/
def retained (keepDaily keepWeekly : ℕ) (s : Finset CopyDate) : Finset CopyDate :=
  newest keepDaily s ∪ (newest keepWeekly (s.filter (onSunday ·)) ∪ s.filter fun d =>
    d.1 < pruneFrom)

theorem stable_retained (keepDaily keepWeekly : ℕ) : Stable (retained keepDaily keepWeekly) :=
  (stable_newest keepDaily).union (((stable_newest keepWeekly).among _).union (.filter _))

section Run

variable {others dir : List String} {s : Finset CopyDate} (ho : Foreign others)
  (h : Holds others dir s) (keepDaily keepWeekly : ℕ)

include ho h

/-- A prune leaves the copies to keep, and the other names. -/
theorem Holds.prune : Holds others (prune keepDaily keepWeekly dir).1
    (retained keepDaily keepWeekly s) := by
  refine ⟨h.nodup.filter _, fun f => ?_⟩
  rw [P300.prune, List.mem_filter, decide_eq_true_eq]
  have hretained : ∀ d ∈ s, ¬ Prunes keepDaily keepWeekly dir (copyName d) ↔
      d ∈ retained keepDaily keepWeekly s := by
    intro d hd
    have hold : d ∈ s.filter (fun d => d.1 < pruneFrom) ↔ d.1 < pruneFrom := by simp [hd]
    rw [retained, Finset.mem_union, Finset.mem_union, hold, ← or_assoc, ← h.mem_keepNames ho,
      Prunes]
    simp only [copyDate_copyName, Option.some.injEq, exists_eq_left', not_and, not_not]
    tauto
  constructor
  · rintro ⟨hf, hkeep⟩
    rcases (h.mem f).mp hf with ⟨d, hd, rfl⟩ | hf
    · exact .inl ⟨d, (hretained d hd).mp hkeep, rfl⟩
    · exact .inr hf
  · rintro (⟨d, hd, rfl⟩ | hf)
    · have hds := (stable_retained keepDaily keepWeekly).subset s hd
      exact ⟨(h.mem _).mpr (.inl ⟨d, hds, rfl⟩), (hretained d hds).mpr hd⟩
    · refine ⟨(h.mem f).mpr (.inr hf), ?_⟩
      rintro ⟨d, hd, -⟩
      rw [ho f hf] at hd
      cases hd

omit ho in
theorem Holds.takeCopy (date : CopyDate) : Holds others (takeCopy date dir) (insert date s) := by
  have hmem : ∀ f, f ∈ P300.takeCopy date dir ↔ f ∈ dir ∨ f = copyName date := by
    intro f
    rw [P300.takeCopy]
    split
    · next hold =>
      refine ⟨.inl, ?_⟩
      rintro (hf | rfl)
      · exact hf
      · exact hold
    · rw [List.mem_append, List.mem_singleton]
  refine ⟨?_, fun f => ?_⟩
  · rw [P300.takeCopy]
    split
    · exact h.nodup
    · next hnew => exact h.nodup.append (List.nodup_singleton _) (List.disjoint_singleton.mpr hnew)
  · rw [hmem, h.mem]
    simp only [Finset.mem_insert, exists_eq_or_imp, eq_comm (a := f)]
    rw [or_comm, or_assoc]

theorem Holds.backups (runs : List (CopyDate × Bool)) :
    Holds others (backups keepDaily keepWeekly dir runs)
      (Stable.run (retained keepDaily keepWeekly) s runs) := by
  induction runs generalizing dir s with
  | nil => exact h
  | cons run runs ih =>
    rw [P300.backups, Stable.run, List.foldl_cons, List.foldl_cons]
    apply ih
    have htaken := h.takeCopy run.1
    cases run.2 with
    | false => exact htaken
    | true => exact htaken.prune ho keepDaily keepWeekly

end Run

/-- A directory whose copies are all to be kept. -/
theorem Holds.prune_eq {others dir : List String} {s : Finset CopyDate} (ho : Foreign others)
    (h : Holds others dir s) {keepDaily keepWeekly : ℕ} (hs : retained keepDaily keepWeekly s = s) :
    P300.prune keepDaily keepWeekly dir = (dir, []) := by
  have hkeep : ∀ f ∈ dir, ¬ Prunes keepDaily keepWeekly dir f := by
    intro f hf
    have hleft : f ∈ (P300.prune keepDaily keepWeekly dir).1 := by
      rwa [(h.prune ho keepDaily keepWeekly).mem, hs, ← h.mem]
    exact of_decide_eq_true (List.mem_filter.mp hleft).2
  rw [P300.prune, List.filter_eq_self.mpr fun f hf => decide_eq_true (hkeep f hf),
    List.filter_eq_nil_iff.mpr]
  intro f hf
  obtain ⟨p, hp, rfl⟩ := List.mem_map.mp hf
  obtain ⟨hd, hname⟩ := (h.mem_dated ho p).mp hp
  simpa using hkeep p.2 ((h.mem _).mpr (.inl ⟨p.1, hd, hname⟩))

/-- Whenever the prunes ran, a last one leaves the newest of all copies ever taken, the newest of
all that were taken on a Sunday, the old ones, and the names that are no copies. One more deletes
nothing. -/
theorem retention_independent_of_pruning (keepDaily keepWeekly : ℕ) {others : List String}
    (hnodup : others.Nodup) (ho : Foreign others) (runs : List (CopyDate × Bool)) :
    let taken := (runs.map Prod.fst).toFinset
    let left := (prune keepDaily keepWeekly (backups keepDaily keepWeekly others runs)).1
    (∀ f, f ∈ left ↔ f ∈ others ∨ ∃ d ∈ taken, copyName d = f ∧
      (d ∈ newest keepDaily taken ∨ d ∈ newest keepWeekly (taken.filter (onSunday ·)) ∨
        d.1 < pruneFrom)) ∧
    prune keepDaily keepWeekly left = (left, []) := by
  intro taken left
  have hstable := stable_retained keepDaily keepWeekly
  have hbase : Holds others others ∅ := ⟨hnodup, fun f => by simp⟩
  have hleft : Holds others left (retained keepDaily keepWeekly taken) := by
    have hprune := (hbase.backups ho keepDaily keepWeekly runs).prune ho keepDaily keepWeekly
    rwa [hstable.run_prune, Stable.all_eq, Finset.empty_union] at hprune
  refine ⟨fun f => ?_, hleft.prune_eq ho (hstable.idem taken)⟩
  rw [hleft.mem, or_comm]
  refine or_congr_right (exists_congr fun d => ?_)
  have hsundays := hstable.subset taken
  rw [retained, Finset.mem_union, Finset.mem_union, Finset.mem_filter]
  constructor
  · rintro ⟨hd, hname⟩
    have hmem : d ∈ taken :=
      hsundays (by rwa [retained, Finset.mem_union, Finset.mem_union, Finset.mem_filter])
    exact ⟨hmem, hname, hd.imp_right fun h => h.imp_right And.right⟩
  · rintro ⟨hmem, hname, hd⟩
    exact ⟨hd.imp_right fun h => h.imp_right fun h => ⟨hmem, h⟩, hname⟩

/-- Copies of a Saturday before `PRUNE_FROM`, a Tuesday, a Sunday, a Tuesday and the Sunday and the
Tuesday after it; the prune after the second Tuesday fails. -/
def septemberRuns : List (CopyDate × Bool) :=
  [(⟨ofCivil 2026 9 12, by decide⟩, true), (⟨ofCivil 2026 9 15, by decide⟩, true),
    (⟨ofCivil 2026 9 20, by decide⟩, true), (⟨ofCivil 2026 9 22, by decide⟩, false),
    (⟨ofCivil 2026 9 27, by decide⟩, true), (⟨ofCivil 2026 9 29, by decide⟩, true)]

theorem foreign_backup : Foreign ["prod-backup.db"] := by
  intro f hf
  rw [List.mem_singleton.mp hf]
  decide +kernel

theorem retention_independent_of_pruning_september :
    let taken := (septemberRuns.map Prod.fst).toFinset
    let left := (prune 1 1 (backups 1 1 ["prod-backup.db"] septemberRuns)).1
    (∀ f, f ∈ left ↔ f ∈ ["prod-backup.db"] ∨ ∃ d ∈ taken, copyName d = f ∧
      (d ∈ newest 1 taken ∨ d ∈ newest 1 (taken.filter (onSunday ·)) ∨ d.1 < pruneFrom)) ∧
    prune 1 1 left = (left, []) :=
  retention_independent_of_pruning 1 1 (List.nodup_singleton _) foreign_backup _

/-- The prunes delete the copies of the two Tuesdays and of the first Sunday. -/
example : backups 1 1 ["prod-backup.db"] septemberRuns =
    ["prod-backup.db", "prod-20260912.db", "prod-20260927.db", "prod-20260929.db"] := by
  decide +kernel

end P300
