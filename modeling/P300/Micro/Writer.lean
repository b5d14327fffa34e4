import P300.Lib.Dict
import Mathlib.Algebra.GroupWithZero.Nat

/-!
# The batched writer

`Writer` of `data/sources/micro/store.py`: rows wait in two bounded deques, `depth_1s` and
everything else; a flush takes all of them into one transaction on the worker thread. A busy
database gives the batch back to the head of the queue, any other error loses it.
-/

namespace P300

/-- The tables of `INSERT_SQL`, in its order. -/
inductive Table
  | liquidations
  | depth1s
  | hlAssetCtx
  | hlLeaderboard
  | hlAccounts
  | hlPositions
  | okxInstruments
  | collectorRuns
  deriving DecidableEq, Repr

/-- The one table whose rows are cheap to lose. -/
def dropFirstTable : Table := .depth1s

variable {ρ : Type}

/-- `_group`: the rows of each table, tables in the order of their first row. -/
def group (batch : List (Table × ρ)) : Dict Table (List ρ) :=
  batch.foldl (fun byTable x => byTable.set x.1 ((byTable.get? x.1).getD [] ++ [x.2])) .empty

structure Writer (ρ : Type) where
  maxQueue : Nat := 200_000
  /-- `depth_1s`, dropped first; the head is on the left -/
  depth : List (Table × ρ) := []
  /-- every other table -/
  other : List (Table × ρ) := []
  inserted : Table → Nat := fun _ => 0
  /-- queue overflow -/
  dropped : Nat := 0
  /-- depth rows refused while `depth_paused` -/
  droppedDisk : Nat := 0
  depthPaused : Bool := false
  flushes : Nat := 0
  /-- batches lost to a non-busy error -/
  flushFailures : Nat := 0
  /-- batches requeued after a locked database -/
  flushRetries : Nat := 0
  lostRows : Nat := 0
  lastFlushError : String := ""
  lastFlushOkMs : Option Int := none

/-- How a transaction ends: committed, with the rows that were new in each table; with the database
locked; or with any other exception, whose `repr` is its class and its arguments. -/
inductive DbAnswer
  | committed (changes : Table → Nat)
  | busy
  | failed (cls args : String)

/-- What `_write` returns. -/
structure WriteResult where
  counts : List (Table × Nat)
  lost : Nat
  err : String

/-- `_write`, or `none` when it raises `WriterBusy`. -/
def write (byTable : Dict Table (List ρ)) : DbAnswer → Option WriteResult
  | .committed changes => some ⟨byTable.keys.map fun t => (t, changes t), 0, ""⟩
  | .busy => none
  | .failed cls args =>
    some ⟨[], (byTable.entries.map fun e => e.2.length).sum, cls ++ "(" ++ args ++ ")"⟩

namespace Writer

variable (w : Writer ρ)

/-- `__len__` -/
def len : Nat := w.depth.length + w.other.length

/-- The queue in flush order. -/
def queued : List (Table × ρ) := w.other ++ w.depth

/-- `_drop_one`, with the row that `popleft` takes; `none` when both deques are empty and it
raises. -/
def dropOne : Option (Writer ρ × (Table × ρ)) :=
  match w.depth, w.other with
  | x :: depth, _ => some ({ w with depth := depth, dropped := w.dropped + 1 }, x)
  | [], x :: other => some ({ w with other := other, dropped := w.dropped + 1 }, x)
  | [], [] => none

/-- `put` refuses the rows of this table. -/
def refuses (table : Table) : Bool := table = dropFirstTable && w.depthPaused

/-- `q.append((table, row))` -/
def append (x : Table × ρ) : Writer ρ :=
  if x.1 = dropFirstTable then { w with depth := w.depth ++ [x] }
  else { w with other := w.other ++ [x] }

/-- `put`, with the rows that it evicts; `none` when it raises. -/
def put (x : Table × ρ) : Option (Writer ρ × List (Table × ρ)) :=
  if w.refuses x.1 = true then some ({ w with droppedDisk := w.droppedDisk + 1 }, [])
  else if w.len ≥ w.maxQueue then w.dropOne.map fun p => (p.1.append x, [p.2])
  else some (w.append x, [])

/-- `_pop_batch` -/
def popBatch : List (Table × ρ) × Writer ρ := (w.queued, { w with depth := [], other := [] })

/-- `while len(self) > self.max_queue: self._drop_one()`, with the rows that it evicts. -/
def trim : Nat → Writer ρ → Option (Writer ρ × List (Table × ρ))
  | 0, w => some (w, [])
  | fuel + 1, w =>
    if w.len > w.maxQueue then do
      let (w', x) ← w.dropOne
      let (w'', xs) ← trim fuel w'
      return (w'', x :: xs)
    else some (w, [])

/-- The two `extendleft` of `_requeue`: the batch goes back to the head in its original order. -/
def giveBack (batch : List (Table × ρ)) : Writer ρ :=
  { w with
    depth := batch.filter (fun x => x.1 = dropFirstTable) ++ w.depth
    other := batch.filter (fun x => x.1 ≠ dropFirstTable) ++ w.other }

/-- `_requeue`, with the rows that it evicts. -/
def requeue (batch : List (Table × ρ)) : Option (Writer ρ × List (Table × ρ)) :=
  trim (w.giveBack batch).len (w.giveBack batch)

/-- `_on_busy`, with the rows that it evicts. -/
def onBusy (batch : List (Table × ρ)) : Option (Writer ρ × List (Table × ρ)) :=
  (w.requeue batch).map fun p => ({ p.1 with flushRetries := p.1.flushRetries + 1 }, p.2)

/-- `self.inserted[table] += n` -/
def addInserted (inserted : Table → Nat) (count : Table × Nat) : Table → Nat :=
  fun t => if t = count.1 then inserted t + count.2 else inserted t

/-- `_on_written` at the wall clock `now`. -/
def onWritten (result : WriteResult) (now : Int) : Writer ρ :=
  let w' := { w with
    inserted := result.counts.foldl addInserted w.inserted
    flushes := w.flushes + 1 }
  if result.err ≠ "" then
    { w' with
      flushFailures := w.flushFailures + 1
      lostRows := w.lostRows + result.lost
      lastFlushError := result.err }
  else { w' with lastFlushOkMs := some now }

end Writer

end P300
