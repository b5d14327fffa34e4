import Mathlib.Algebra.Order.Group.Int
import Mathlib.Data.Int.ConditionallyCompleteOrder
import Mathlib.Data.List.Chain
import Mathlib.Order.ConditionallyCompleteLattice.Basic
import P300.Basic
import P300.Lib.KeyTable

/-!
# The re-stamp of the open interest

`data/migrations/2026_09_19_oi_close_of_hour.py`: the rows from the seam on were stored one hour
late. The migration copies them to a backup table and moves each one back by an hour; `--revert`
restores the copy.
-/

namespace P300

/-! ## The migration -/

/-- A row of `cd_open_interest`, less its timestamp. -/
structure OiCells where
  oiOpen : SqlCell
  oiHigh : SqlCell
  oiLow : SqlCell
  oiClose : SqlCell
  oiValueOpen : SqlCell
  oiValueHigh : SqlCell
  oiValueLow : SqlCell
  oiValueClose : SqlCell
  deriving DecidableEq

abbrev OiTable := KeyTable Int OiCells

/-- `cd_open_interest` and, once a run has made it, `cd_open_interest_bak_20260919`. -/
structure OiDb where
  table : OiTable
  backup : Option OiTable
  deriving DecidableEq

/-- `H` -/
def hourS : Int := 3600

/-- `SEAM`, in seconds. -/
def seam : Int := 1_781_082_000

example : isoformat (seam * 1_000_000) = "2026-06-10T09:00:00+00:00" := by decide +kernel

/-- `block`: the rows from the seam on. -/
def oiBlock (table : OiTable) : OiTable := table.restrict (seam ≤ ·)

/-- A point snapshot. -/
def OiCells.Flat (row : OiCells) : Prop :=
  row.oiOpen = row.oiHigh ∧ row.oiHigh = row.oiLow ∧ row.oiLow = row.oiClose

instance (row : OiCells) : Decidable row.Flat := inferInstanceAs (Decidable (_ ∧ _))

/-- `f"{cell:,.0f}"` does not raise. -/
def formattable : SqlCell → Bool
  | .integer _ => true
  | .real _ => true
  | .infinity _ => true
  | .null => false
  | .text _ => false
  | .blob _ => false

/-- The rows from one hour before the seam on. -/
def oiBackup (table : OiTable) : OiTable := table.restrict (seam - hourS ≤ ·)

/-- `DELETE` the block, then `INSERT OR IGNORE` each of its rows an hour earlier. -/
def movedBack (table : OiTable) : OiTable :=
  (oiBlock table).rows.foldl (fun t r => t.insertOrIgnore (r.1 - hourS) r.2)
    (table.restrict (· < seam))

/-- `DELETE` from an hour before the seam on, then `INSERT OR REPLACE` the rows of the backup. -/
def restored (table bak : OiTable) : OiTable :=
  bak.rows.foldl (fun t r => t.insertOrReplace r.1 r.2) (table.restrict (· < seam - hourS))

/-- The command line, and whether the feed's heartbeat is under two minutes old. -/
structure MigrationArgs where
  dryRun : Bool
  revert : Bool
  allowLiveFeed : Bool
  feedIsLive : Bool

/-- The exit code, or an exception: a missing backup table, a value that cannot be printed. -/
inductive MigrationExit
  | returned (code : ℕ)
  | raised
  deriving DecidableEq

/-- The printout of the seam: the close of the row before it and of the first row from it on. -/
def seamPrints (table : OiTable) (first : OiCells) : Bool :=
  ((table.get? (seam - hourS)).map fun prev => formattable prev.oiClose).getD false &&
    formattable first.oiClose

/-- `main` -/
def oiMigration (args : MigrationArgs) (d : OiDb) : OiDb × MigrationExit :=
  if args.feedIsLive && !args.allowLiveFeed && !args.dryRun then (d, .returned 2)
  else if args.revert then
    match d.backup with
    | none => (d, .raised)
    | some bak =>
      if args.dryRun then (d, .returned 0)
        else ({ d with table := restored d.table bak }, .returned 0)
  else
    match (oiBlock d.table).rows with
    | [] => (d, .returned 0)
    | first :: rows =>
      if ¬ ∀ r ∈ first :: rows, r.2.Flat then (d, .returned 2)
      else if ¬ ((first :: rows).map Prod.fst).IsChain fun a b =>
        b - a = hourS then (d, .returned 2)
      else if !seamPrints d.table first.2 then (d, .raised)
      else if args.dryRun then (d, .returned 0)
      else (⟨movedBack d.table, some (oiBackup d.table)⟩, .returned 0)

/-- A run that the feed does not stop. -/
def migrateOi (d : OiDb) : OiDb := (oiMigration ⟨false, false, true, false⟩ d).1

/-- `--revert`, not stopped by the feed. -/
def revertOi (d : OiDb) : OiDb := (oiMigration ⟨false, true, true, false⟩ d).1

theorem oiMigration_of_dryRun {args : MigrationArgs} (h : args.dryRun = true) (d : OiDb) :
    (oiMigration args d).1 = d := by
  rw [oiMigration, h]
  split
  · rfl
  split
  · split <;> rfl
  split
  · rfl
  split
  · rfl
  split
  · rfl
  split <;> rfl

/-- A dry run, and a run that finds the feed live, change nothing; all others do the same. -/
theorem oiMigration_eq (args : MigrationArgs) (d : OiDb) : (oiMigration args d).1 =
    if args.dryRun ∨ (args.feedIsLive ∧ ¬ args.allowLiveFeed) then d
    else if args.revert then revertOi d else migrateOi d := by
  by_cases hdry : args.dryRun
  · rw [if_pos (.inl hdry), oiMigration_of_dryRun hdry]
  by_cases hlive : args.feedIsLive ∧ ¬ args.allowLiveFeed
  · rw [if_pos (.inr hlive), oiMigration, if_pos (by simp [hlive, hdry])]
  · obtain ⟨dryRun, revert, allowLiveFeed, feedIsLive⟩ := args
    cases (Bool.eq_false_of_not_eq_true hdry : dryRun = false)
    rw [if_neg (by simpa using hlive), oiMigration, if_neg (by simpa using hlive)]
    cases revert <;> rfl

/-! ## What one run does -/

section Run

variable {d : OiDb}

/-- The first row from the seam on, with the row of the hour before it, can be printed. -/
def Printable (table : OiTable) : Prop :=
  ∃ first, (oiBlock table).rows.head? = some first ∧ seamPrints table first.2

instance (table : OiTable) : Decidable (Printable table) :=
  match h : (oiBlock table).rows.head? with
  | none => isFalse (by rintro ⟨first, hf, -⟩; rw [h] at hf; cases hf)
  | some first => decidable_of_iff (seamPrints table first.2 = true)
      ⟨fun hp => ⟨first, h, hp⟩, by rintro ⟨r, hr, hp⟩; rw [h] at hr; cases hr; exact hp⟩

/-- The rows from the seam on are one contiguous hourly run of point snapshots. -/
structure HourlyRun (table : OiTable) : Prop where
  flat : ∀ r ∈ (oiBlock table).rows, r.2.Flat
  hourly : ((oiBlock table).rows.map Prod.fst).IsChain fun a b => b - a = hourS

theorem migrateOi_of_printable (h : HourlyRun d.table) (hp : Printable d.table) :
    migrateOi d = ⟨movedBack d.table, some (oiBackup d.table)⟩ := by
  obtain ⟨first, hfirst, hprints⟩ := hp
  obtain ⟨rows, hrows⟩ := List.head?_eq_some_iff.mp hfirst
  have hflat := h.flat
  have hhourly := h.hourly
  rw [hrows] at hflat hhourly
  rw [migrateOi, oiMigration, if_neg (by decide), if_neg (by decide)]
  simp only [hrows]
  rw [if_neg (not_not.mpr hflat), if_neg (not_not.mpr hhourly), if_neg (by simp [hprints]),
    if_neg (by decide)]

theorem migrateOi_of_not_printable (hp : ¬ Printable d.table) : migrateOi d = d := by
  rw [migrateOi, oiMigration, if_neg (by decide), if_neg (by decide)]
  split
  · rfl
  next first rows hrows =>
  have hprints : seamPrints d.table first.2 = false := by
    by_contra h
    exact hp ⟨first, by rw [hrows]; rfl, by simpa using h⟩
  split
  · rfl
  split
  · rfl
  rw [if_pos (by rw [hprints]; rfl)]

theorem revertOi_of_backup {bak : OiTable} (h : d.backup = some bak) :
    revertOi d = { d with table := restored d.table bak } := by
  rw [revertOi, oiMigration, if_neg (by decide), if_pos rfl]
  simp only [h]
  rfl

theorem revertOi_of_none (h : d.backup = none) : revertOi d = d := by
  rw [revertOi, oiMigration, if_neg (by decide), if_pos rfl]
  simp only [h]

end Run

/-! ## What every stamp holds afterwards -/

section Stamps

variable (table bak : OiTable) (k : Int)

theorem get?_oiBlock : (oiBlock table).get? k = if seam ≤ k then table.get? k else none := by
  rw [oiBlock, KeyTable.get?_restrict]
  simp only [decide_eq_true_eq]

theorem get?_oiBackup : (oiBackup table).get? k = if seam - hourS ≤ k then table.get? k
    else none := by
  rw [oiBackup, KeyTable.get?_restrict]
  simp only [decide_eq_true_eq]

theorem get?_movedBack : (movedBack table).get? k =
    (if k < seam then table.get? k else none).or
      (if seam ≤ k + hourS then table.get? (k + hourS) else none) := by
  have hmoved : (oiBlock table).rows.foldl
        (fun t r => t.insertOrIgnore (r.1 - hourS) r.2) (table.restrict (· < seam)) =
      ((oiBlock table).translate (-hourS)).rows.foldl
        (fun t r => t.insertOrIgnore r.1 r.2) (table.restrict (· < seam)) := by
    rw [KeyTable.translate, List.foldl_map]
    simp only [Int.sub_eq_add_neg]
  rw [movedBack, hmoved, KeyTable.get?_foldl_insertOrIgnore, KeyTable.get?_restrict]
  change (ite _ _ _ : Option OiCells).or (((oiBlock table).translate (-hourS)).get? k) = _
  rw [KeyTable.get?_translate, Int.sub_neg, get?_oiBlock]
  simp only [decide_eq_true_eq]

theorem get?_restored : (restored table bak).get? k =
    (bak.get? k).or (if k < seam - hourS then table.get? k else none) := by
  rw [restored, KeyTable.get?_foldl_insertOrReplace, KeyTable.get?_restrict]
  simp only [decide_eq_true_eq]

variable {table}

/-- Later than the seam, every row has moved. -/
theorem get?_movedBack_of_le {k : Int} (hk : seam ≤ k) :
    (movedBack table).get? k = table.get? (k + hourS) := by
  rw [get?_movedBack, if_neg (by omega), if_pos (by unfold hourS; omega), Option.none_or]

/-- Earlier than an hour before the seam, none has. -/
theorem get?_movedBack_of_lt {k : Int} (hk : k < seam - hourS) :
    (movedBack table).get? k = table.get? k := by
  rw [get?_movedBack, if_pos (by unfold hourS at hk; omega), if_neg (by omega), Option.or_none]

/-- The seam row keeps its place. -/
theorem get?_movedBack_seam {prev : OiCells} (h : table.get? (seam - hourS) = some prev) :
    (movedBack table).get? (seam - hourS) = some prev := by
  rw [get?_movedBack, if_pos (by decide), h]
  rfl

/-- The rows that are still in the block after a run. -/
theorem oiBlock_movedBack : oiBlock (movedBack table) =
    (table.restrict (seam + hourS ≤ ·)).translate (-hourS) := by
  ext1 k
  rw [get?_oiBlock, KeyTable.get?_translate, Int.sub_neg, KeyTable.get?_restrict]
  by_cases hk : seam ≤ k
  · rw [if_pos hk, get?_movedBack_of_le hk, if_pos (decide_eq_true (Int.add_le_add_right hk hourS))]
  · rw [if_neg hk, if_neg fun h => hk (Int.le_of_add_le_add_right (of_decide_eq_true h))]

end Stamps

/-! ## Running it again, and undoing it -/

section Again

variable {d : OiDb}

/-- A second run goes through again if there is a row an hour after the seam or later, and the first
one can be printed. -/
theorem printable_movedBack (hp : Printable d.table) : Printable (movedBack d.table) ↔
    ∃ first, (d.table.restrict (seam + hourS ≤ ·)).rows.head? = some first ∧
      formattable first.2.oiClose := by
  obtain ⟨first₀, -, hprints⟩ := hp
  rw [seamPrints, Bool.and_eq_true] at hprints
  obtain ⟨prev, hprev, hclose⟩ : ∃ prev, d.table.get? (seam - hourS) = some prev ∧
      formattable prev.oiClose := by
    cases hprev : d.table.get? (seam - hourS) with
    | none => simp [hprev] at hprints
    | some prev => exact ⟨prev, rfl, by simpa [hprev] using hprints.1⟩
  have hseam : ∀ first : OiCells,
      seamPrints (movedBack d.table) first = formattable first.oiClose := by
    intro first
    rw [seamPrints, get?_movedBack_seam hprev, Option.map_some, Option.getD_some, hclose,
      Bool.true_and]
  rw [Printable, oiBlock_movedBack, KeyTable.translate, List.head?_map]
  simp only [hseam, Option.map_eq_some_iff]
  constructor
  · rintro ⟨-, ⟨r, hr, rfl⟩, hf⟩
    exact ⟨r, hr, hf⟩
  · rintro ⟨r, hr, hf⟩
    exact ⟨_, ⟨r, hr, rfl⟩, hf⟩

theorem HourlyRun.movedBack {table : OiTable} (h : HourlyRun table) :
    HourlyRun (movedBack table) := by
  have hsuffix : (table.restrict (seam + hourS ≤ ·)).rows <:+ (oiBlock table).rows :=
    KeyTable.restrict_suffix (by decide)
  have hrows : (oiBlock (P300.movedBack table)).rows =
      (table.restrict (seam + hourS ≤ ·)).rows.map fun r => (r.1 + -hourS, r.2) := by
    rw [oiBlock_movedBack]
    rfl
  constructor
  · intro r hr
    rw [hrows] at hr
    obtain ⟨r', hr', rfl⟩ := List.mem_map.mp hr
    exact h.flat r' (hsuffix.subset hr')
  · have hchain := h.hourly.suffix (hsuffix.map Prod.fst)
    rw [List.isChain_map] at hchain
    rw [hrows, List.map_map, List.isChain_map]
    exact hchain.imp fun a b hab => by simpa using hab

/-- A run that goes through changes the table: the newest stamp becomes empty. -/
theorem movedBack_ne {table : OiTable} (h : (oiBlock table).rows ≠ []) :
    movedBack table ≠ table := by
  intro heq
  obtain ⟨⟨k, row⟩, hlast, hmax⟩ := KeyTable.exists_last h
  have hk := KeyTable.mem_rows_iff.mp hlast
  rw [get?_oiBlock] at hk
  split at hk
  · next hseam =>
    have hmoved : (movedBack table).get? k = table.get? (k + hourS) := get?_movedBack_of_le hseam
    rw [heq, hk] at hmoved
    have hnext := hmax (k + hourS, row) (KeyTable.mem_rows_iff.mpr (by
      rw [get?_oiBlock, if_pos (by unfold hourS; omega), ← hmoved]))
    simp [hourS] at hnext
  · cases hk

theorem restored_backup (table : OiTable) :
    restored (movedBack table) (oiBackup table) = table := by
  ext1 k
  rw [get?_restored, get?_oiBackup]
  by_cases hk : seam - hourS ≤ k
  · rw [if_pos hk, if_neg (by omega), Option.or_none]
  · rw [if_neg hk, if_pos (by omega), get?_movedBack_of_lt (by omega), Option.none_or]

/-- Running it once more, any number of times, leaves the table of the first run, and `--revert`
then restores the table from before it. -/
def RepeatsAndUndoes (d : OiDb) : Prop :=
  ∀ n, (migrateOi^[n + 1] d).table = (migrateOi d).table ∧
    (revertOi (migrateOi^[n + 1] d)).table = d.table

/-- The second run is stopped by its printout, or has nothing to do; a run that is stopped itself
finds no backup of other rows. -/
def SecondRunIdle (d : OiDb) : Prop :=
  if Printable d.table then
    ∀ first, (d.table.restrict (seam + hourS ≤ ·)).rows.head? = some first →
      ¬ formattable first.2.oiClose
  else
    ∀ bak, d.backup = some bak → ∀ k, seam - hourS ≤ k ∨ (bak.get? k).isSome →
      bak.get? k = d.table.get? k

theorem repeats_iff_of_printable (h : HourlyRun d.table) (hp : Printable d.table) :
    RepeatsAndUndoes d ↔ ¬ Printable (movedBack d.table) := by
  have hfirst := migrateOi_of_printable h hp
  have htable : (migrateOi d).table = movedBack d.table := by rw [hfirst]
  constructor
  · intro hsafe hagain
    have htwice := (hsafe 1).1
    rw [Function.iterate_succ_apply, Function.iterate_one,
      migrateOi_of_printable (by rw [htable]; exact h.movedBack) (by rwa [htable]),
      htable] at htwice
    obtain ⟨first, hrow, -⟩ := hagain
    refine movedBack_ne ?_ htwice
    rintro hempty
    rw [hempty] at hrow
    cases hrow
  · intro hstop n
    have hfix : migrateOi^[n] (migrateOi d) = migrateOi d :=
      Function.iterate_fixed (migrateOi_of_not_printable (by rwa [htable])) n
    rw [Function.iterate_succ_apply, hfix]
    refine ⟨rfl, ?_⟩
    rw [hfirst, revertOi_of_backup rfl]
    exact restored_backup d.table

theorem repeats_iff_of_not_printable (hp : ¬ Printable d.table) :
    RepeatsAndUndoes d ↔ (revertOi d).table = d.table := by
  have hfix : ∀ n, migrateOi^[n] d = d := Function.iterate_fixed (migrateOi_of_not_printable hp)
  constructor
  · intro hsafe
    have hundo := (hsafe 0).2
    rwa [hfix] at hundo
  · intro hrevert n
    rw [hfix, migrateOi_of_not_printable hp]
    exact ⟨rfl, hrevert⟩

theorem revertOi_table_iff : (revertOi d).table = d.table ↔ ∀ bak, d.backup = some bak →
    ∀ k, seam - hourS ≤ k ∨ (bak.get? k).isSome → bak.get? k = d.table.get? k := by
  cases hbackup : d.backup with
  | none =>
    rw [revertOi_of_none hbackup]
    simp
  | some bak =>
    rw [revertOi_of_backup hbackup]
    constructor
    · rintro heq _ ⟨⟩ k hk
      have hget := get?_restored d.table bak k
      rw [show restored d.table bak = d.table from heq] at hget
      rw [hget]
      by_cases hlt : k < seam - hourS
      · rw [Option.or_of_isSome (hk.resolve_left (by omega))]
      · rw [if_neg hlt, Option.or_none]
    · intro hbak
      ext1 k
      rw [get?_restored]
      by_cases hk : seam - hourS ≤ k
      · rw [hbak bak rfl k (.inl hk), if_neg (by omega), Option.or_none]
      · rw [if_pos (by omega)]
        cases hb : bak.get? k with
        | none => rfl
        | some row => rw [← hbak bak rfl k (.inr (by rw [hb]; rfl)), hb]; rfl

/-- The re-stamp can be repeated and undone exactly if its second run is idle. -/
theorem restamp_repeats_iff (d : OiDb) (h : HourlyRun d.table) :
    RepeatsAndUndoes d ↔ SecondRunIdle d := by
  rw [SecondRunIdle]
  split
  · next hp =>
    rw [repeats_iff_of_printable h hp, printable_movedBack hp]
    simp only [not_exists, not_and]
  · next hp => rw [repeats_iff_of_not_printable hp, revertOi_table_iff]

end Again

/-- A point snapshot of the open interest `x`, without its value columns. -/
def snapshot (x : ℚ) : OiCells :=
  ⟨.real x, .real x, .real x, .real x, .null, .null, .null, .null⟩

/-- The last CoinDesk row and one snapshot at the seam. -/
def oneSnapshot : OiDb where
  table := ⟨[(seam - hourS, snapshot 10), (seam, snapshot 10)], by decide⟩
  backup := none

theorem restamp_repeats_oneSnapshot : RepeatsAndUndoes oneSnapshot ↔ SecondRunIdle oneSnapshot :=
  restamp_repeats_iff oneSnapshot ⟨by decide, by decide⟩

/-- The last CoinDesk row and two snapshots. -/
def twoSnapshots : OiDb where
  table :=
    ⟨[(seam - hourS, snapshot 10), (seam, snapshot 10), (seam + hourS, snapshot 11)], by decide⟩
  backup := none

/-- The second run drops the second snapshot, and its backup lacks the first. -/
theorem second_restamp_shifts_again : HourlyRun twoSnapshots.table ∧
    (migrateOi^[2] twoSnapshots).table ≠ (migrateOi twoSnapshots).table ∧
    (revertOi (migrateOi^[2] twoSnapshots)).table ≠ twoSnapshots.table :=
  ⟨⟨by decide, by decide⟩, by decide +kernel, by decide +kernel⟩

end P300
