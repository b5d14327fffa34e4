import Mathlib.Data.List.Chain
import Mathlib.Tactic.Linarith
import P300.Basic
import P300.Micro.Book

/-!
# The budget of REST snapshots

`binance_ws.DepthHandler`: the task `resync_loop` polls the books and requests a snapshot for each
that needs one. The clock is read once for a pass over all symbols, while a request may take any
time, in which the socket may come and go and messages arrive.
-/

namespace P300

/-! ## The handler -/

def snapshotBackoffMaxS : ℚ := 120

def rateLimitHoldMinS : ℚ := 60

/-- How a request ends. -/
inductive SnapshotAnswer
  | rateLimited (retryAfterS : ℚ)
  | failed
  | body (snap : Snapshot)

structure DepthHandler where
  /-- The keys of `books`, in their order. -/
  symbols : List String
  nodup : symbols.Nodup
  books : String → LocalBook := fun _ => {}
  minGapS : ℚ := 2
  lastSnapshotAt : Dict String ℚ := .empty
  /-- Consecutive failures of each symbol. -/
  failures : Dict String ℕ := .empty
  holdUntil : ℚ := 0
  connected : Bool := false
  snapshots : ℕ := 0
  snapshotFailures : ℕ := 0

namespace DepthHandler

variable (h : DepthHandler) (symbol : String)

def onConnect : DepthHandler :=
  { h with
    connected := true
    failures := .empty
    books := fun s => (h.books s).markOutOfSync "connect" }

def onDisconnect : DepthHandler :=
  if h.connected then
    { h with
      connected := false
      books := fun s => (h.books s).markOutOfSync "disconnect" }
  else h

/-- `on_message` with a parsed event, at the wall clock `nowMs`. -/
def onMessage (ev : DepthEvent) (nowMs : Int) : DepthHandler :=
  if symbol ∈ h.symbols then
    { h with books := Function.update h.books symbol ((h.books symbol).applyEvent ev nowMs).1 }
  else h

def snapshotGapS : ℚ := min snapshotBackoffMaxS (h.minGapS * 2 ^ (h.failures.get? symbol).getD 0)

/-- `_failed` -/
def fail : DepthHandler :=
  { h with
    snapshotFailures := h.snapshotFailures + 1
    failures := h.failures.set symbol ((h.failures.get? symbol).getD 0 + 1) }

/-- `resync_once` from the answer to its request on, which is there at `clock`. -/
def resyncOnce (clock : ℚ) (nowMs : Int) : SnapshotAnswer → DepthHandler
  | .rateLimited retryAfterS =>
    { h with holdUntil := clock + max retryAfterS rateLimitHoldMinS }.fail symbol
  | .failed => h.fail symbol
  | .body snap =>
    if h.connected then
      let h := { h with snapshots := h.snapshots + 1 }
      match (h.books symbol).applySnapshot snap nowMs with
      | none => h.fail symbol
      | some (b, ok) =>
        let h := { h with books := Function.update h.books symbol b }
        if ok then { h with failures := h.failures.erase symbol } else h.fail symbol
    else h

/-- The checks that let `resync_loop` request a snapshot for a symbol, in a pass that read the clock
at `now`. -/
def Due (now : ℚ) : Prop :=
  (h.books symbol).needSnapshot ∧ h.connected ∧
    ¬ now - (h.lastSnapshotAt.get? symbol).getD (-1_000_000_000) < h.snapshotGapS symbol

instance (now : ℚ) : Decidable (h.Due symbol now) := inferInstanceAs (Decidable (_ ∧ _))

end DepthHandler

/-! ## The loop -/

/-- Where `resync_loop` is. -/
inductive LoopPc
  | sleeping
  /-- In a pass that read the clock at `now`, with the symbols `rest` ahead. -/
  | passing (now : ℚ) (rest : List String)
  | requesting (now : ℚ) (symbol : String) (rest : List String)
  | returned (now : ℚ) (rest : List String)

/-- A request that was made. -/
structure SnapshotRequest where
  symbol : String
  /-- The clock's reading of its pass. -/
  reading : ℚ
  start : ℚ
  /-- `snapshot_gap_s` before it. -/
  gap : ℚ
  /-- `hold_until` before it. -/
  hold : ℚ
  deriving DecidableEq

structure ResyncSys where
  clock : ℚ
  handler : DepthHandler
  stop : Bool := false
  pc : LoopPc := .sleeping
  requests : List SnapshotRequest := []

inductive ResyncAct
  | elapse (dt : ℚ)
  | connect
  | disconnect
  | message (symbol : String) (ev : DepthEvent) (nowMs : Int)
  | setStop
  /-- The loop goes on. -/
  | proceed
  | answer (a : SnapshotAnswer) (nowMs : Int)

namespace ResyncSys

variable (s : ResyncSys)

/-- Other tasks run only while the loop awaits. -/
def Awaiting : Prop :=
  match s.pc with
  | .sleeping | .requesting .. => True
  | _ => False

instance : Decidable s.Awaiting := by
  unfold Awaiting
  split <;> infer_instance

/-- The stamp and the begin of `resync_once`. -/
def request (now : ℚ) (symbol : String) (rest : List String) : ResyncSys :=
  { s with
    handler := { s.handler with lastSnapshotAt := s.handler.lastSnapshotAt.set symbol now }
    pc := .requesting now symbol rest
    requests := s.requests ++
      [⟨symbol, now, s.clock, s.handler.snapshotGapS symbol, s.handler.holdUntil⟩] }

/-- What `resync_loop` does up to the next point at which time may pass. -/
def proceed : Option ResyncSys :=
  match s.pc with
  | .sleeping =>
    if s.stop then none
    else if s.handler.connected ∧ s.handler.holdUntil ≤ s.clock then
      some { s with pc := .passing s.clock s.handler.symbols }
    else some s
  | .passing _ [] => some { s with pc := .sleeping }
  | .passing now (symbol :: rest) =>
    if s.handler.Due symbol now then some (s.request now symbol rest)
    else some { s with pc := .passing now rest }
  | .requesting .. => none
  | .returned now rest =>
    if s.clock < s.handler.holdUntil then some { s with pc := .sleeping }
    else some { s with pc := .passing now rest }

def step : ResyncAct → Option ResyncSys
  | .elapse dt => if 0 ≤ dt then some { s with clock := s.clock + dt } else none
  | .connect => if s.Awaiting then some { s with handler := s.handler.onConnect } else none
  | .disconnect => if s.Awaiting then some { s with handler := s.handler.onDisconnect } else none
  | .message symbol ev nowMs =>
    if s.Awaiting then some { s with handler := s.handler.onMessage symbol ev nowMs } else none
  | .setStop => if s.Awaiting then some { s with stop := true } else none
  | .proceed => s.proceed
  | .answer a nowMs =>
    match s.pc with
    | .requesting now symbol rest =>
      some { s with
        handler := s.handler.resyncOnce symbol s.clock nowMs a, pc := .returned now rest }
    | _ => none

def run (acts : List ResyncAct) : Option ResyncSys := acts.foldlM step s

/-- The handler before its task starts. -/
def init (symbols : List String) (nodup : symbols.Nodup) (minGapS clock : ℚ) : ResyncSys :=
  { clock, handler := { symbols, nodup, minGapS } }

/-- The requests for a symbol. -/
def requestsOf (symbol : String) : List SnapshotRequest :=
  s.requests.filter fun r => r.symbol = symbol

end ResyncSys

end P300
