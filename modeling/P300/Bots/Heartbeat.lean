import P300.Lib.Register
import Mathlib.Data.Int.Notation
import Mathlib.Data.Nat.Notation
import Mathlib.Logic.Function.Basic

/-!
# Heartbeats and the stand-down

`botlib.heartbeat` takes the time, selects the row of its name, and upserts it. A process that finds
a later write of another pid than its own previous write refuses new entries
(`strategies/support/instance_guard.py`) until a heartbeat that finds none. Two processes here share
one row, and the steps of their heartbeats interleave.
-/

namespace P300

open Register

/-! ## The stand-down flag -/

/-- `stand_down`: the `_reason` that it leaves. -/
def standDown (reason : String) : Option String := some reason

/-- `resume` -/
def resume : Option String := none

/-- `is_standing_down` -/
def isStandingDown (reason : Option String) : Bool := reason.isSome

/-- `check_entry_allowed`, which raises `DuplicateInstanceError`. -/
def checkEntryAllowed : Option String → Except String Unit
  | some reason => .error s!"refusing to open a trade while standing down: {reason}"
  | none => .ok ()

theorem checkEntryAllowed_eq_ok {reason : Option String} :
    checkEntryAllowed reason = .ok () ↔ isStandingDown reason = false := by
  cases reason with
  | none => exact ⟨fun _ => rfl, fun _ => rfl⟩
  | some => exact ⟨fun h => (by cases h), fun h => by cases h⟩

/-! ## The heartbeat -/

/-- A row of `bot_heartbeats` less its name. Instants stand for their ISO texts: these are of one
format and zone, so their order is that of the instants. -/
structure HeartbeatRow where
  lastTickUtc : ℕ
  lastEvalUtc : Option String
  lastSignalUtc : Option String
  openTrades : Option ℤ
  intervalS : Option ℤ
  status : String
  note : Option String
  pid : Option ℕ
  deriving DecidableEq

/-- The keyword arguments of `heartbeat`. -/
structure HeartbeatArgs where
  status : String := "ok"
  note : String := ""
  intervalS : Option ℤ := none
  lastEvalUtc : Option String := none
  lastSignalUtc : Option String := none
  openTrades : Option ℤ := none
  deriving DecidableEq

/-- The other pid that has written `row` since the own previous write, if there is one. -/
def duplicatePid (myPid : ℕ) (prevOwn : Option ℕ) (row : Option (Option ℕ × ℕ)) : Option ℕ :=
  match row, prevOwn with
  | some (some pid, lastTick), some prevOwn =>
    if pid ≠ myPid ∧ lastTick > prevOwn then some pid else none
  | _, _ => none

/-- The row that the `UPSERT` leaves. -/
def upsertHeartbeat (name : String) (myPid now : ℕ) (args : HeartbeatArgs) (duplicate : Option ℕ)
    (old : Option HeartbeatRow) : HeartbeatRow :=
  let (status, note) := match duplicate with
    | some pid => ("error", s!"DUPLICATE INSTANCE: pid {pid} also writing '" ++ name ++
        s!"' (I am {myPid}). Kill one. " ++ args.note)
    | none => (args.status, args.note)
  {
    lastTickUtc := now
    lastEvalUtc := args.lastEvalUtc <|> old.bind (·.lastEvalUtc)
    lastSignalUtc := args.lastSignalUtc <|> old.bind (·.lastSignalUtc)
    openTrades := args.openTrades <|> old.bind (·.openTrades)
    intervalS := args.intervalS <|> old.bind (·.intervalS)
    status, note := some note, pid := some myPid }

/-- The flag after a heartbeat. -/
def heartbeatGuard (name : String) (duplicate : Option ℕ) : Option String :=
  if duplicate.isSome then standDown ("another process is writing the '" ++ name ++ "' heartbeat")
  else resume

@[simp] theorem isStandingDown_heartbeatGuard {name : String} {duplicate : Option ℕ} :
    isStandingDown (heartbeatGuard name duplicate) = duplicate.isSome := by
  cases duplicate <;> rfl

/-! ## Two instances of a bot -/

/-- The processes. -/
inductive Instance
  | first
  | second
  deriving DecidableEq

/-- The process that is not `p`. -/
def Instance.other : Instance → Instance
  | .first => .second
  | .second => .first

@[simp] theorem Instance.other_other (p : Instance) : p.other.other = p := by cases p <;> rfl

theorem Instance.ne_other (p : Instance) : p ≠ p.other := by cases p <;> decide

theorem Instance.eq_other {p q : Instance} : q = p.other ↔ q ≠ p := by
  cases p <;> cases q <;> decide

/-- Two processes that beat under one name. -/
structure Doubled where
  name : String
  pid : Instance → ℕ
  pid_ne : pid .first ≠ pid .second

theorem Doubled.pid_inj (c : Doubled) {p q : Instance} : c.pid p = c.pid q ↔ p = q := by
  cases p <;> cases q <;> simp [c.pid_ne, c.pid_ne.symm]

/-- How far a process is in a heartbeat: it has taken the time, or it has also selected the row. -/
inductive BeatPhase
  | down
  | idle
  | stamped (now : ℕ) (args : HeartbeatArgs)
  | selected (now : ℕ) (args : HeartbeatArgs) (row : Option (Option ℕ × ℕ))
  deriving DecidableEq

/-- A process: its heartbeat, its entry of `_last_hb_write` and its `_reason`. -/
structure BotProcess where
  phase : BeatPhase
  lastHbWrite : Option ℕ
  reason : Option String

/-- The row of the name, the clock and the processes. -/
structure Heartbeats where
  row : Option HeartbeatRow
  clock : ℕ
  proc : Instance → BotProcess

/-- A step of a process. The `SELECT` may raise an `OperationalError`, which is as if there were no
row, and any error of the `UPSERT` ends the call. -/
inductive BeatStep
  | boot (p : Instance)
  | stamp (p : Instance) (now : ℕ) (args : HeartbeatArgs)
  | select (p : Instance)
  | selectFails (p : Instance)
  | upsert (p : Instance) (now : ℕ)
  | upsertFails (p : Instance)
  deriving DecidableEq

namespace Heartbeats

/-- Nothing runs yet; the row may be that of a former process. -/
def init (row : Option HeartbeatRow) (clock : ℕ) : Heartbeats where
  row := row
  clock := clock
  proc _ := { phase := .down, lastHbWrite := none, reason := none }

/-- The process `p` opens trades. -/
def EntryAllowed (s : Heartbeats) (p : Instance) : Prop :=
  checkEntryAllowed (s.proc p).reason = .ok ()

instance (s : Heartbeats) (p : Instance) : Decidable (s.EntryAllowed p) :=
  decidable_of_iff _ checkEntryAllowed_eq_ok.symm

/-- The process `p` becomes `b`. -/
def set (s : Heartbeats) (p : Instance) (b : BotProcess) : Heartbeats :=
  { s with proc := Function.update s.proc p b }

@[simp] theorem set_proc_self {s : Heartbeats} {p : Instance} {b : BotProcess} :
    (s.set p b).proc p = b := Function.update_self ..

@[simp] theorem set_proc_ne {s : Heartbeats} {p q : Instance} {b : BotProcess} (h : q ≠ p) :
    (s.set p b).proc q = s.proc q := Function.update_of_ne h ..

/-- The process `p` goes on in its heartbeat. -/
def goto (s : Heartbeats) (p : Instance) (phase : BeatPhase) : Heartbeats :=
  s.set p { s.proc p with phase }

section goto

variable {s : Heartbeats} {p q : Instance} {phase : BeatPhase}

@[simp] theorem goto_phase_self : ((s.goto p phase).proc p).phase = phase := by
  rw [goto, set_proc_self]

@[simp] theorem goto_phase_ne (h : q ≠ p) : ((s.goto p phase).proc q).phase = (s.proc q).phase := by
  rw [goto, set_proc_ne h]

@[simp] theorem goto_lastHbWrite :
    ((s.goto p phase).proc q).lastHbWrite = (s.proc q).lastHbWrite := by
  by_cases h : q = p
  · subst h
    rw [goto, set_proc_self]
  · rw [goto, set_proc_ne h]

@[simp] theorem goto_reason : ((s.goto p phase).proc q).reason = (s.proc q).reason := by
  by_cases h : q = p
  · subst h
    rw [goto, set_proc_self]
  · rw [goto, set_proc_ne h]

end goto

/-- One step of one process. A stamp is larger than what the clock has shown so far. -/
def step (c : Doubled) (s : Heartbeats) : BeatStep → Option Heartbeats
  | .boot p => match (s.proc p).phase with
    | .down => some (s.goto p .idle)
    | _ => none
  | .stamp p now args => match (s.proc p).phase with
    | .idle =>
      if s.clock < now then some { s.goto p (.stamped now args) with clock := now } else none
    | _ => none
  | .select p => match (s.proc p).phase with
    | .stamped now args =>
      some (s.goto p (.selected now args (s.row.map fun r => (r.pid, r.lastTickUtc))))
    | _ => none
  | .selectFails p => match (s.proc p).phase with
    | .stamped now args => some (s.goto p (.selected now args none))
    | _ => none
  | .upsert p t => match (s.proc p).phase with
    | .selected now args row =>
      if t = now then
        let duplicate := duplicatePid (c.pid p) (s.proc p).lastHbWrite row
        some {
          s.set p {
            phase := .idle
            lastHbWrite := some now
            reason := heartbeatGuard c.name duplicate } with
          row := some (upsertHeartbeat c.name (c.pid p) now args duplicate s.row) }
      else none
    | _ => none
  | .upsertFails p => match (s.proc p).phase with
    | .selected .. => some (s.goto p .idle)
    | _ => none

/-- A run, its latest step first. -/
def run (c : Doubled) (s : Heartbeats) : List BeatStep → Option Heartbeats
  | [] => some s
  | a :: tr => (run c s tr).bind (step c · a)

end Heartbeats

end P300
