import P300.Lib.Dict
import Mathlib.Algebra.Order.Ring.Rat

/-!
# The local order book

`data/sources/micro/book.py`: the book of one symbol that follows the diff depth stream. Events that
arrive before a snapshot are buffered; a snapshot is loaded and the buffer replayed over it; every
later event must continue the chain of update ids, and a break marks the book out of sync.
-/

namespace P300

/-- The most events that are held while a snapshot is pending. -/
def bufferMax : Nat := 5000

/-- Price to quantity. -/
abbrev Side := Dict ℚ ℚ

/-- The texts `"bid"` and `"ask"`. -/
inductive BookSide
  | bid
  | ask
  deriving DecidableEq

/-- A `depthUpdate`, with its numbers parsed. -/
structure DepthEvent where
  /-- `U` -/
  first : Int
  /-- `u` -/
  final : Int
  /-- `pu` -/
  prev : Option Int
  /-- `b` -/
  bids : List (ℚ × ℚ) := []
  /-- `a` -/
  asks : List (ℚ × ℚ) := []
  deriving DecidableEq

def DepthEvent.levels (ev : DepthEvent) : BookSide → List (ℚ × ℚ)
  | .bid => ev.bids
  | .ask => ev.asks

/-- A REST snapshot; what does not parse as a number is `none`. -/
structure Snapshot where
  lastUpdateId : Option Int
  bids : List (Option ℚ × Option ℚ) := []
  asks : List (Option ℚ × Option ℚ) := []

/-- One step of `_levels`; the price of a level without quantity is not looked at. -/
def addLevel (out : Side) (level : Option ℚ × Option ℚ) : Option Side := do
  let q ← level.2
  if q > 0 then
    let p ← level.1
    return out.set p q
  else return out

/-- `_levels`, or `none` when it raises. -/
def levels_ (pairs : List (Option ℚ × Option ℚ)) : Option Side := pairs.foldlM addLevel .empty

/-- One step of `_apply_levels`. -/
def applyLevel (side : Side) (level : ℚ × ℚ) : Side :=
  if level.2 ≤ 0 then side.erase level.1 else side.set level.1 level.2

/-- `_apply_levels` -/
def applyLevels (side : Side) (pairs : List (ℚ × ℚ)) : Side := pairs.foldl applyLevel side

structure LocalBook where
  bids : Side := .empty
  asks : Side := .empty
  lastUpdateId : Option Int := none
  inSync : Bool := false
  needSnapshot : Bool := true
  /-- The first event after a snapshot must bracket it. -/
  firstPending : Bool := false
  buffer : List DepthEvent := []
  bufferDropped : Nat := 0
  resyncs : Nat := 0
  eventsApplied : Nat := 0
  lastReason : String := ""
  /-- The wall clock of the last applied event or snapshot. -/
  lastEventMs : Option Int := none
  /-- The snapshot's price range. -/
  snapLoPx : Option ℚ := none
  snapHiPx : Option ℚ := none

namespace LocalBook

variable (b : LocalBook)

def levels : BookSide → Side
  | .bid => b.bids
  | .ask => b.asks

/-- The farthest level of the snapshot. -/
def snapPx : BookSide → Option ℚ
  | .bid => b.snapLoPx
  | .ask => b.snapHiPx

def markOutOfSync (why : String) : LocalBook :=
  { b with
    inSync := false
    needSnapshot := true
    firstPending := false
    resyncs := b.resyncs + 1
    lastReason := why }

/-- `_buffer` -/
def hold (ev : DepthEvent) : LocalBook :=
  let buffer := b.buffer ++ [ev]
  if buffer.length > bufferMax then
    { b with buffer := buffer.tail, bufferDropped := b.bufferDropped + 1 }
  else { b with buffer := buffer }

/-- The tail of `apply_event`: the event is accepted. -/
def accept (ev : DepthEvent) (now : Int) : LocalBook :=
  { b with
    bids := applyLevels b.bids ev.bids
    asks := applyLevels b.asks ev.asks
    lastUpdateId := some ev.final
    firstPending := false
    eventsApplied := b.eventsApplied + 1
    lastEventMs := some now }

/-- `apply_event` at the wall clock `now`; the flag tells whether the event was applied. -/
def applyEvent (ev : DepthEvent) (now : Int) : LocalBook × Bool :=
  match b.needSnapshot, b.lastUpdateId with
  | false, some last =>
    let prev := ev.prev.getD (-1)
    if ev.final < last then (b, false)
    else if b.firstPending = true then
      if ¬ (ev.first ≤ last ∧ last ≤ ev.final) then
        ((b.markOutOfSync
          s!"first event {ev.first}..{ev.final} does not bracket {last}").hold ev, false)
      else (b.accept ev now, true)
    else if prev ≠ last then
      ((b.markOutOfSync s!"pu {prev} != last u {last}").hold ev, false)
    else (b.accept ev now, true)
  | _, _ => (b.hold ev, false)

/-- The book after the parsed snapshot is loaded, with the buffer taken out. -/
def load (luid : Int) (bids asks : Side) (now : Int) : LocalBook :=
  { b with
    bids := bids
    asks := asks
    snapLoPx := bids.keys.min?
    snapHiPx := asks.keys.max?
    lastUpdateId := some luid
    inSync := true
    needSnapshot := false
    firstPending := true
    lastEventMs := some now
    buffer := [] }

/-- The buffered events, one after the other; once the chain breaks, the rest is buffered again. -/
def replay (pending : List DepthEvent) (now : Int) : LocalBook :=
  pending.foldl (fun b ev => (b.applyEvent ev now).1) b

/-- `apply_snapshot` at the wall clock `now`; the flag tells whether the book is in sync afterwards.
A malformed snapshot raises (`none`) before the book is touched. -/
def applySnapshot (snap : Snapshot) (now : Int) : Option (LocalBook × Bool) := do
  let luid ← snap.lastUpdateId
  let bids ← levels_ snap.bids
  let asks ← levels_ snap.asks
  let b' := (b.load luid bids asks now).replay b.buffer now
  return (b', b'.inSync)

end LocalBook

/-- What the depth handler does to a book. -/
inductive BookInput
  | event (ev : DepthEvent) (now : Int)
  | snapshot (snap : Snapshot) (now : Int)
  | markOutOfSync (why : String)

/-- One input; a malformed snapshot leaves the book as it was. -/
def LocalBook.step (b : LocalBook) : BookInput → LocalBook
  | .event ev now => (b.applyEvent ev now).1
  | .snapshot snap now => ((b.applySnapshot snap now).map Prod.fst).getD b
  | .markOutOfSync why => b.markOutOfSync why

def LocalBook.run (b : LocalBook) (inputs : List BookInput) : LocalBook := inputs.foldl step b

end P300
