import Mathlib.Algebra.Order.Ring.Rat
import P300.Basic
import P300.Calendar
import P300.Lib.Dict
import P300.Lib.KeyTable
import P300.Lib.Related
import P300.Lib.Transaction

/-!
# Repair of mislabelled minute candles

`data/repair_minute_candles.py`: some rows of `btc_1m` were seeded with fifteen-minute candles. A
recovery file holds the wrong rows with their replacements, and `apply_repair` writes all of them or
none.
-/

namespace P300

open TxnStore (Prog)

/-! ## The tables -/

/-- A row of `btc_1m`, less its open time. -/
structure MinuteCells where
  open_ : SqlCell
  high : SqlCell
  low : SqlCell
  close : SqlCell
  volume : SqlCell
  numTrades : SqlCell
  deriving DecidableEq

abbrev MinuteTable := KeyTable Int MinuteCells

/-- The columns of a row of `cd_spot_15m` that are compared. -/
structure SpotCells where
  open_ : SqlCell
  high : SqlCell
  low : SqlCell
  close : SqlCell
  volume : SqlCell
  totalTrades : SqlCell
  deriving DecidableEq

/-- The source database. A table is `none` when it or one of its columns is missing. -/
structure MinuteDb where
  btc1m : Option MinuteTable
  cdSpot15m : Option (KeyTable Int SpotCells)
  otherTables : Dict String (List (List SqlCell))

/-- The recovery file. -/
structure Stage where
  metadata : Dict String (Option String)
  originals : MinuteTable
  replacements : MinuteTable

/-- The statements at which the engine may fail: a locked file, a constraint, a trigger that
aborts. -/
inductive RepairStmt
  | readStage
  | connect
  | beginImmediate
  | createTemp
  | insertOriginals
  | currentRows
  | countBefore
  | updateRow (openTime : Int)
  | countAfter
  | updatedRows
  | audit
  | commit
  deriving DecidableEq

inductive RepairError
  | sqlError (stmt : RepairStmt)
  | noSuchTable
  | keyError (key : String)
  | typeError
  /-- "recovery database belongs to a different source" -/
  | differentSource
  /-- "invalid literal for int()" -/
  | invalidLiteral (text : String)
  /-- "incomplete recovery database" -/
  | incompleteRecovery
  | unalignedMinute (ts : Int)
  | nonfiniteCandle (ts : Int)
  | invalidOhlcv (ts : Int)
  | invalidTradeCount (ts : Int)
  /-- "invalid replacement keys or unchanged clone" -/
  | invalidReplacement
  /-- "source rows changed since preparation; no rows updated" -/
  | sourceRowsChanged
  /-- "unexpected number of updated rows" -/
  | unexpectedRowcount
  /-- "post-repair validation failed; all changes rolled back" -/
  | postRepairValidation
  /-- `ComparisonUnavailable`: a table or a column is missing, or no candle overlaps -/
  | comparisonUnavailable
  deriving DecidableEq

/-! ## The audit -/

/-- The candle fields of `MATCH_SQL`. -/
def MinuteCells.SameCandle (m : MinuteCells) (s : SpotCells) : Prop :=
  m.open_.SqlEq s.open_ ∧ m.high.SqlEq s.high ∧ m.low.SqlEq s.low ∧ m.close.SqlEq s.close ∧
    m.volume.SqlEq s.volume ∧ m.numTrades.SqlEq s.totalTrades

instance (m : MinuteCells) (s : SpotCells) : Decidable (m.SameCandle s) :=
  inferInstanceAs (Decidable (_ ∧ _))

/-- `EXISTS` a later minute of the quarter hour with volume. -/
def laterVolume (minutes : MinuteTable) (openTime : Int) : Bool :=
  minutes.rows.any fun later =>
    openTime < later.1 ∧ later.1 < openTime + 900_000 ∧ later.2.volume.positive

/-- `find_mislabeled_minutes` -/
def findMislabeledMinutes (db : MinuteDb) : Except RepairError (List (Int × MinuteCells)) :=
  match db.btc1m, db.cdSpot15m with
  | some minutes, some spots =>
    if spots.rows.any fun s => (minutes.get? (s.1 * 1000)).isSome then
      .ok (minutes.rows.filter fun m =>
        spots.rows.any (fun s => m.1 = s.1 * 1000 ∧ m.2.SameCandle s.2) ∧ laterVolume minutes m.1)
    else .error .comparisonUnavailable
  | _, _ => .error .comparisonUnavailable

/-! ## The checks of the recovery file -/

/-- `math.isfinite` -/
def isfinite : SqlCell → Except RepairError Bool
  | .integer _ => .ok true
  | .real _ => .ok true
  | .infinity _ => .ok false
  | .null => .error .typeError
  | .text _ => .error .typeError
  | .blob _ => .error .typeError

/-- `_validate_values` -/
def validateValues (ts : Int) (row : MinuteCells) : Except RepairError Unit :=
  if ts % 60_000 ≠ 0 then .error (.unalignedMinute ts)
  else do
    let finite ← [row.open_, row.high, row.low, row.close, row.volume].allM isfinite
    let op := row.open_.number
    let hi := row.high.number
    let lo := row.low.number
    let cl := row.close.number
    if !finite then .error (.nonfiniteCandle ts)
    else if ¬ (0 < lo ∧ lo ≤ min op cl ∧ min op cl ≤ max op cl ∧ max op cl ≤ hi) ∨
        row.volume.number < 0 then .error (.invalidOhlcv ts)
    else match row.numTrades with
    | .integer trades => if trades < 0 then .error (.invalidTradeCount ts) else .ok ()
    | _ => .error (.invalidTradeCount ts)

/-- The blanks that `int` takes off a text. -/
def intBlanks : List ℕ :=
  [0x9, 0xA, 0xB, 0xC, 0xD, 0x20, 0x85, 0xA0, 0x1680, 0x2000, 0x2001, 0x2002, 0x2003, 0x2004,
    0x2005, 0x2006, 0x2007, 0x2008, 0x2009, 0x200A, 0x2028, 0x2029, 0x202F, 0x205F, 0x3000]

/-- `int(text)`; a number of any length is read. -/
def pyInt (text : String) : Option Int :=
  let strip (cs : List Char) := cs.dropWhile fun c => intBlanks.contains c.toNat
  let digits (cs : List Char) : Option Int :=
    let groups := cs.splitOnP (· == '_')
    if groups.all fun g => !g.isEmpty && g.all fun c => (decimal c).isSome then
      some (intOfDigits groups.flatten : ℕ)
    else none
  match (strip (strip text.toList).reverse).reverse with
  | '-' :: cs => (digits cs).map fun n => -n
  | '+' :: cs => digits cs
  | cs => digits cs

/-- The digits may be those of any script. -/
example : pyInt " -1_२" = some (-12) := by decide +kernel

/-- `metadata[key]`, as a text. -/
def Stage.field (stage : Stage) (key : String) : Except RepairError String :=
  match stage.metadata.get? key with
  | none => .error (.keyError key)
  | some none => .error .typeError
  | some (some text) => .ok text

/-- One pair of the loop over `zip(originals, replacements)`. -/
def checkPair (pair : (Int × MinuteCells) × (Int × MinuteCells)) : Except RepairError Unit := do
  let (original, replacement) := pair
  validateValues replacement.1 replacement.2
  if original.1 ≠ replacement.1 ∨ original = replacement then .error .invalidReplacement else .ok ()

/-- The checks before the source database is opened; `resolve` is `Path.resolve`. -/
def Stage.check (resolve : String → String) (database : String) (stage : Stage) :
    Except RepairError Unit := do
  let source ← stage.field "database"
  if resolve source ≠ resolve database then .error .differentSource
  else
    let text ← stage.field "count"
    match pyInt text with
    | none => .error (.invalidLiteral text)
    | some count =>
      if stage.originals.rows.length ≠ count ∨
          stage.originals.rows.length ≠ stage.replacements.rows.length ∨
            stage.originals.rows = [] then
        .error .incompleteRecovery
      else (stage.originals.rows.zip stage.replacements.rows).forM checkPair

/-! ## The transaction -/

section

variable (faults : RepairStmt → Bool)

/-- A statement, unless the engine fails at it; the exception closes the connection. -/
def attempt (stmt : RepairStmt) (k : Prog MinuteDb (Except RepairError ℕ)) :
    Prog MinuteDb (Except RepairError ℕ) :=
  if faults stmt then .ret (.error (.sqlError stmt)) else k

/-- `repair_originals r JOIN btc_1m m USING(open_time) ORDER BY m.open_time` -/
def Stage.joined (stage : Stage) (db : MinuteDb) : Option (List (Int × MinuteCells)) :=
  db.btc1m.map fun minutes => (minutes.restrict fun k => (stage.originals.get? k).isSome).rows

/-- `SELECT COUNT(*) FROM btc_1m` -/
def MinuteDb.countBtc1m (db : MinuteDb) : Option ℕ := db.btc1m.map (·.rows.length)

/-- One `UPDATE btc_1m`, with its row count. -/
def MinuteDb.updateMinute (row : Int × MinuteCells) (db : MinuteDb) : MinuteDb × ℕ :=
  ({ db with btc1m := db.btc1m.map (·.update row.1 row.2) },
    (db.btc1m.map (·.matches_ row.1)).getD 0)

/-- `executemany("UPDATE btc_1m …")`, which counts the rows of all its updates. -/
def updateMinutes (k : ℕ → Prog MinuteDb (Except RepairError ℕ)) :
    List (Int × MinuteCells) → ℕ → Prog MinuteDb (Except RepairError ℕ)
  | [], rowcount => k rowcount
  | row :: rows, rowcount =>
    attempt faults (.updateRow row.1) <| .exec (MinuteDb.updateMinute row) fun n =>
      updateMinutes k rows (rowcount + n)

/-- `apply_repair` -/
def applyRepair (resolve : String → String) (database : String) (stage : Stage) :
    Prog MinuteDb (Except RepairError ℕ) :=
  attempt faults .readStage <|
  match stage.check resolve database with
  | .error e => .ret (.error e)
  | .ok () =>
    attempt faults .connect <| attempt faults .beginImmediate <| .beginImmediate <|
    attempt faults .createTemp <| attempt faults .insertOriginals <|
    attempt faults .currentRows <| .select stage.joined fun
    | none => .ret (.error .noSuchTable)
    | some current =>
      if current = stage.replacements.rows then .ret (.ok 0)
      else if current ≠ stage.originals.rows then .ret (.error .sourceRowsChanged)
      else
        attempt faults .countBefore <| .select MinuteDb.countBtc1m fun before =>
        updateMinutes faults (fun rowcount =>
          if rowcount ≠ stage.originals.rows.length then .ret (.error .unexpectedRowcount)
          else
            attempt faults .countAfter <| .select MinuteDb.countBtc1m fun after =>
            attempt faults .updatedRows <| .select stage.joined fun updated =>
            if before ≠ after ∨ updated ≠ some stage.replacements.rows then
              .ret (.error .postRepairValidation)
            else
              attempt faults .audit <| .select findMislabeledMinutes fun
              | .error e => .ret (.error e)
              | .ok (_ :: _) => .ret (.error .postRepairValidation)
              | .ok [] =>
                attempt faults .commit <| .commit <| .ret (.ok stage.originals.rows.length))
          stage.replacements.rows 0

end

/-! ## A recovery file that passes -/

theorem of_forM_ok {α ε : Type} {f : α → Except ε Unit} {l : List α} (h : l.forM f = .ok ()) :
    ∀ a ∈ l, f a = .ok () := by
  induction l with
  | nil => simp
  | cons a l ih =>
    obtain ⟨u, ha, hl⟩ := of_bind_ok (f := fun _ => l.forM f) h
    intro b hb
    rcases List.mem_cons.mp hb with rfl | hb
    · exact ha
    · exact ih hl b hb

theorem of_checkPair_ok {pair : (Int × MinuteCells) × (Int × MinuteCells)}
    (h : checkPair pair = .ok ()) : pair.1.1 = pair.2.1 ∧ pair.1 ≠ pair.2 := by
  obtain ⟨original, replacement⟩ := pair
  obtain ⟨_, _, h⟩ := of_bind_ok h
  by_contra hbad
  rw [if_pos (by rwa [not_and_or, not_not] at hbad)] at h
  cases h

/-- What the checks of a recovery file tell the transaction. -/
structure Stage.Paired (stage : Stage) : Prop where
  nonempty : stage.originals.rows ≠ []
  pairs : List.Forall₂ (fun o r => o.1 = r.1 ∧ o ≠ r) stage.originals.rows stage.replacements.rows

theorem Stage.paired_of_check {resolve : String → String} {database : String} {stage : Stage}
    (h : stage.check resolve database = .ok ()) : stage.Paired := by
  obtain ⟨source, _, h⟩ := of_bind_ok h
  split at h
  · cases h
  obtain ⟨text, _, h⟩ := of_bind_ok h
  split at h
  · cases h
  split at h
  · cases h
  · next hcount =>
    rw [not_or, not_or, not_not, not_not] at hcount
    refine ⟨hcount.2.2, List.forall₂_iff_zip.mpr ⟨hcount.2.1, fun hpair => ?_⟩⟩
    exact of_checkPair_ok (of_forM_ok h _ hpair)

namespace Stage.Paired

variable {stage : Stage} (h : stage.Paired)

include h

theorem replacement {k : Int} {original : MinuteCells}
    (ho : stage.originals.get? k = some original) :
    ∃ new, stage.replacements.get? k = some new ∧ new ≠ original := by
  obtain ⟨r, hr, hkey, hne⟩ := h.pairs.mem_left (KeyTable.mem_rows_iff.mpr ho)
  obtain ⟨k', new⟩ := r
  subst hkey
  refine ⟨new, KeyTable.mem_rows_iff.mp hr, ?_⟩
  rintro rfl
  exact hne rfl

theorem original {k : Int} {new : MinuteCells} (hr : stage.replacements.get? k = some new) :
    ∃ old, stage.originals.get? k = some old ∧ new ≠ old := by
  obtain ⟨o, ho, hkey, hne⟩ := h.pairs.mem_right (KeyTable.mem_rows_iff.mpr hr)
  obtain ⟨k', old⟩ := o
  subst hkey
  refine ⟨old, KeyTable.mem_rows_iff.mp ho, ?_⟩
  rintro rfl
  exact hne rfl

theorem replacement_isSome (k : Int) :
    (stage.replacements.get? k).isSome = (stage.originals.get? k).isSome := by
  cases ho : stage.originals.get? k with
  | some old =>
    obtain ⟨new, hr, _⟩ := h.replacement ho
    rw [hr]
    rfl
  | none =>
    cases hr : stage.replacements.get? k with
    | none => rfl
    | some new =>
      obtain ⟨old, ho', _⟩ := h.original hr
      rw [ho'] at ho
      cases ho

end Stage.Paired

/-! ## The outcomes of a run -/

section Run

variable {faults : RepairStmt → Bool} {db w : MinuteDb} {txn : Option MinuteDb} {stage : Stage}
  {k : Prog MinuteDb (Except RepairError ℕ)} {P : MinuteDb × Except RepairError ℕ → Prop}

/-- A statement raises and the committed value stays, or the program goes on. -/
theorem attempt_cases {stmt : RepairStmt} (hfail : faults stmt → P (db, .error (.sqlError stmt)))
    (hk : P (k.runWith txn db)) : P ((attempt faults stmt k).runWith txn db) := by
  rw [attempt]
  split
  · next h => exact hfail h
  · exact hk

theorem updateMinutes_cases {k : ℕ → Prog MinuteDb (Except RepairError ℕ)}
    {rows : List (Int × MinuteCells)}
    (hfail : ∀ stmt, faults stmt → P (db, .error (.sqlError stmt))) (n : ℕ)
    (hk : ∀ m, P ((k m).runWith (some { w with
      btc1m := w.btc1m.map fun minutes => rows.foldl (fun t r => t.update r.1 r.2) minutes }) db)) :
    P ((updateMinutes faults k rows n).runWith (some w) db) := by
  induction rows generalizing n w with
  | nil =>
    have hn := hk n
    simp only [List.foldl_nil, Option.map_id'] at hn
    exact hn
  | cons row rows ih =>
    apply attempt_cases (hfail _)
    rw [TxnStore.Prog.runWith_exec]
    apply ih
    intro m
    have hm := hk m
    rwa [MinuteDb.updateMinute, Option.getD_some, Option.map_map]

end Run

section Outcome

variable (faults : RepairStmt → Bool) (resolve : String → String) (database : String)
  (stage : Stage) (db : MinuteDb)

/-- How a run ends: it raises, finds the repair done, or commits it. -/
inductive RepairOutcome : MinuteDb × Except RepairError ℕ → Prop
  | refused (e : RepairError) : RepairOutcome (db, .error e)
  | nothing (hcheck : stage.check resolve database = .ok ())
    (hdone : stage.joined db = some stage.replacements.rows) : RepairOutcome (db, .ok 0)
  | committed (hcheck : stage.check resolve database = .ok ()) (minutes : MinuteTable)
    (hdb : db.btc1m = some minutes) (hcurrent : stage.joined db = some stage.originals.rows)
    (hupdated : stage.joined { db with btc1m := some (stage.replacements.updateAll minutes) } =
      some stage.replacements.rows)
    (hclean : findMislabeledMinutes
      { db with btc1m := some (stage.replacements.updateAll minutes) } = .ok []) :
    RepairOutcome ({ db with btc1m := some (stage.replacements.updateAll minutes) },
      .ok stage.originals.rows.length)

theorem applyRepair_outcome : RepairOutcome resolve database stage db
    ((applyRepair faults resolve database stage).run db) := by
  have hfail : ∀ stmt, faults stmt →
      RepairOutcome resolve database stage db (db, .error (.sqlError stmt)) :=
        fun stmt _ => .refused _
  apply attempt_cases (hfail _)
  cases hcheck : stage.check resolve database with
  | error e => exact .refused e
  | ok _ =>
  apply attempt_cases (hfail _)
  apply attempt_cases (hfail _)
  apply attempt_cases (hfail _)
  apply attempt_cases (hfail _)
  apply attempt_cases (hfail _)
  rw [TxnStore.Prog.runWith_select, Option.getD_some, Option.getD_none]
  cases hjoined : stage.joined db with
  | none => exact .refused .noSuchTable
  | some current =>
  obtain ⟨minutes, hdb, -⟩ := Option.map_eq_some_iff.mp hjoined
  dsimp only
  split
  · next h => exact .nothing hcheck (by rw [hjoined, h])
  split
  · exact .refused .sourceRowsChanged
  next hcurrent =>
  rw [not_not] at hcurrent
  apply attempt_cases (hfail _)
  rw [TxnStore.Prog.runWith_select]
  apply updateMinutes_cases hfail
  intro rowcount
  have hwrite : ({ db with
      btc1m :=
        db.btc1m.map fun t => stage.replacements.rows.foldl (fun t r => t.update r.1 r.2) t } :
      MinuteDb) = { db with btc1m := some (stage.replacements.updateAll minutes) } := by
    rw [hdb]
    rfl
  rw [hwrite]
  split
  · exact .refused .unexpectedRowcount
  apply attempt_cases (hfail _)
  rw [TxnStore.Prog.runWith_select]
  apply attempt_cases (hfail _)
  rw [TxnStore.Prog.runWith_select, Option.getD_some]
  split
  · exact .refused .postRepairValidation
  next hupdated =>
  rw [not_or, not_not, not_not] at hupdated
  apply attempt_cases (hfail _)
  rw [TxnStore.Prog.runWith_select, Option.getD_some]
  split
  · exact .refused _
  · exact .refused .postRepairValidation
  next hclean =>
  apply attempt_cases (hfail _)
  exact .committed hcheck minutes hdb (by rw [hjoined, hcurrent]) hupdated.2 hclean

variable {resolve database stage db}

/-- A run that finds the replacements in place leaves them, and returns 0 unless the engine
fails. -/
theorem applyRepair_done (hcheck : stage.check resolve database = .ok ())
    (hdone : stage.joined db = some stage.replacements.rows) :
    ((applyRepair faults resolve database stage).run db).1 = db ∧
      (((applyRepair faults resolve database stage).run db).2 = .ok 0 ∨
        ∃ stmt, faults stmt ∧
          ((applyRepair faults resolve database stage).run db).2 = .error (.sqlError stmt)) := by
  let P : MinuteDb × Except RepairError ℕ → Prop := fun out => out.1 = db ∧
    (out.2 = .ok 0 ∨ ∃ stmt, faults stmt ∧ out.2 = .error (.sqlError stmt))
  have hfail : ∀ stmt, faults stmt → P (db, .error (.sqlError stmt)) := fun stmt h =>
    ⟨rfl, .inr ⟨stmt, h, rfl⟩⟩
  change P _
  apply attempt_cases (hfail _)
  rw [hcheck]
  apply attempt_cases (hfail _)
  apply attempt_cases (hfail _)
  apply attempt_cases (hfail _)
  apply attempt_cases (hfail _)
  apply attempt_cases (hfail _)
  rw [TxnStore.Prog.runWith_select, Option.getD_some, Option.getD_none, hdone]
  dsimp only
  rw [if_pos rfl]
  exact ⟨rfl, .inl rfl⟩

end Outcome

/-! ## All or nothing -/

/-- `SELECT … FROM btc_1m WHERE open_time = ?` -/
def MinuteDb.minute? (db : MinuteDb) (k : Int) : Option MinuteCells := db.btc1m.bind (·.get? k)

/-- What a committed repair has done. -/
structure Repaired (stage : Stage) (db db' : MinuteDb) : Prop where
  original : ∀ k row, stage.originals.get? k = some row → db.minute? k = some row
  replaced : ∀ k row, stage.replacements.get? k = some row → db'.minute? k = some row
  differs : ∀ k, db'.minute? k ≠ db.minute? k ↔ (stage.originals.get? k).isSome
  staged : ∀ k, (stage.replacements.get? k).isSome = (stage.originals.get? k).isSome
  clean : findMislabeledMinutes db' = .ok []
  cdSpot15m : db'.cdSpot15m = db.cdSpot15m
  otherTables : db'.otherTables = db.otherTables

section

variable {stage : Stage} {db : MinuteDb} {minutes : MinuteTable}

theorem minute?_of_joined (hdb : db.btc1m = some minutes) {t : MinuteTable}
    (hjoined : stage.joined db = some t.rows) {k : Int} (hk : (stage.originals.get? k).isSome) :
    db.minute? k = t.get? k := by
  have hrows : minutes.restrict (fun k => (stage.originals.get? k).isSome) = t := by
    rw [Stage.joined, hdb] at hjoined
    exact KeyTable.rows_injective (Option.some.inj hjoined)
  rw [MinuteDb.minute?, hdb, ← hrows, KeyTable.get?_restrict, if_pos hk]
  rfl

theorem Stage.Paired.repaired (h : stage.Paired) (hdb : db.btc1m = some minutes)
    (hcurrent : stage.joined db = some stage.originals.rows)
    (hclean : findMislabeledMinutes
      { db with btc1m := some (stage.replacements.updateAll minutes) } = .ok []) :
    Repaired stage db { db with btc1m := some (stage.replacements.updateAll minutes) } := by
  have horiginal : ∀ k row, stage.originals.get? k = some row → db.minute? k = some row := by
    intro k row hrow
    rw [minute?_of_joined hdb hcurrent (by rw [hrow]; rfl), hrow]
  have hget : ∀ k, MinuteDb.minute?
    { db with btc1m := some (stage.replacements.updateAll minutes) } k =
      (db.minute? k).map fun v => (stage.replacements.get? k).getD v := by
    intro k
    rw [MinuteDb.minute?, MinuteDb.minute?, hdb]
    exact KeyTable.get?_updateAll ..
  refine ⟨horiginal, fun k new hnew => ?_, fun k => ?_, h.replacement_isSome, hclean, rfl, rfl⟩
  · obtain ⟨old, hold, _⟩ := h.original hnew
    rw [hget, horiginal k old hold, hnew]
    rfl
  · rw [hget]
    cases hold : stage.originals.get? k with
    | none =>
      have hnone : stage.replacements.get? k = none := by
        rw [← Option.not_isSome_iff_eq_none, h.replacement_isSome, hold]
        simp
      simp [hnone]
    | some old =>
      obtain ⟨new, hnew, hne⟩ := h.replacement hold
      simp [horiginal k old hold, hnew, hne]

/-- A mixture: some staged row still as recorded, and another one replaced. -/
def Mixed (stage : Stage) (db : MinuteDb) : Prop :=
  (∃ k row, stage.originals.get? k = some row ∧ db.minute? k = some row) ∧
    ∃ k row, stage.replacements.get? k = some row ∧ db.minute? k = some row

theorem Stage.Paired.not_mixed (h : stage.Paired) (hdb : db.btc1m = some minutes)
    (hjoined : stage.joined db = some stage.originals.rows ∨
      stage.joined db = some stage.replacements.rows) : ¬ Mixed stage db := by
  rintro ⟨⟨k, old, hold, hk⟩, k', new, hnew, hk'⟩
  rcases hjoined with hjoined | hjoined
  · obtain ⟨old', hold', hne⟩ := h.original hnew
    rw [minute?_of_joined hdb hjoined (by rw [hold']; rfl), hold'] at hk'
    exact hne (Option.some.inj hk').symm
  · obtain ⟨new', hnew', hne⟩ := h.replacement hold
    rw [minute?_of_joined hdb hjoined (by rw [hold]; rfl), hnew'] at hk
    exact hne (Option.some.inj hk)

end

/-- The repair commits as a whole or changes nothing; it is done once; a mixture is refused. -/
theorem repair_all_or_nothing (faults again : RepairStmt → Bool) (resolve : String → String)
    (database : String) (stage : Stage) (db : MinuteDb) :
    let out := (applyRepair faults resolve database stage).run db
    let out' := (applyRepair again resolve database stage).run out.1
    ((∃ n, 0 < n ∧ out.2 = .ok n ∧ Repaired stage db out.1) ∨
      (out.1 = db ∧ (out.2 = .ok 0 ∨ ∃ e, out.2 = .error e))) ∧
    ((∃ n, 0 < n ∧ out.2 = .ok n) → out'.1 = out.1 ∧
      (out'.2 = .ok 0 ∨ ∃ stmt, again stmt ∧ out'.2 = .error (.sqlError stmt))) ∧
    (Mixed stage db → out.1 = db ∧ ∃ e, out.2 = .error e) := by
  intro out out'
  have hout : RepairOutcome resolve database stage db out := applyRepair_outcome ..
  have hagain : out' = (applyRepair again resolve database stage).run out.1 := rfl
  clear_value out out'
  subst hagain
  cases hout with
  | refused e =>
    refine ⟨.inr ⟨rfl, .inr ⟨e, rfl⟩⟩, ?_, fun _ => ⟨rfl, e, rfl⟩⟩
    rintro ⟨n, -, h⟩
    cases h
  | nothing hcheck hdone =>
    obtain ⟨minutes, hdb, -⟩ := Option.map_eq_some_iff.mp hdone
    refine ⟨.inr ⟨rfl, .inl rfl⟩, ?_, fun hmixed => absurd hmixed ?_⟩
    · rintro ⟨n, hn, h⟩
      cases h
      exact absurd hn (lt_irrefl 0)
    · exact (Stage.paired_of_check hcheck).not_mixed hdb (.inr hdone)
  | committed hcheck minutes hdb hcurrent hupdated hclean =>
    have hpaired := Stage.paired_of_check hcheck
    refine ⟨.inl ⟨_, List.length_pos_iff.mpr hpaired.nonempty, rfl,
      hpaired.repaired hdb hcurrent hclean⟩, fun _ => applyRepair_done again hcheck hupdated,
      fun hmixed => absurd hmixed ?_⟩
    exact hpaired.not_mixed hdb (.inl hcurrent)

/-- A minute that holds the candle of its quarter hour, and a later one. -/
def cloneDb : MinuteDb where
  btc1m := some ⟨[(900_000, ⟨.real 100, .real 110, .real 90, .real 105, .real 30, .integer 100⟩),
    (960_000, ⟨.real 101, .real 102, .real 100, .real 101, .real 1, .integer 2⟩)], by decide⟩
  cdSpot15m := some ⟨[(900, ⟨.real 100, .real 110, .real 90, .real 105, .real 30, .integer 100⟩)],
    by decide⟩
  otherTables := .empty

def cloneStage : Stage where
  metadata := (Dict.empty.set "database" (some "prod.db")).set "count" (some "1")
  originals :=
    ⟨[(900_000, ⟨.real 100, .real 110, .real 90, .real 105, .real 30, .integer 100⟩)], by decide⟩
  replacements := ⟨[(900_000, ⟨.real 100, .real 102, .real 99, .real 101, .real 2, .integer 5⟩)],
    by decide⟩

example : ((applyRepair (fun _ => false) id "prod.db" cloneStage).run cloneDb).2 = .ok 1 := by
  decide +kernel

end P300
