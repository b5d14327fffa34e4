import Mathlib.Algebra.BigOperators.Intervals
import Mathlib.Tactic.Linarith
import P300.Lib.Trace

/-!
# The reconnecting stream

`data/sources/micro/wsclient.py`: `run_stream` connects, reads the frames of the session, and after
the session or a failure to connect sleeps a backoff that doubles until a connection has lived for a
minute. Two hooks fire around each session.
-/

namespace P300

def backoffMaxS : ℚ := 60

def backoffResetAfterS : ℚ := 60

/-- `backoff_schedule` -/
def backoffSchedule (attempt : Int) : ℚ :=
  let attempt := if attempt < 0 then 0 else attempt
  min backoffMaxS (2 ^ attempt.toNat)

inductive StreamState
  | init
  | connecting
  | connected
  | backoff
  | stopped
  deriving DecidableEq

structure StreamStatus where
  state : StreamState := .init
  lastMsgMs : Option Int := none
  msgs : ℕ := 0
  rows : ℕ := 0
  reconnects : ℕ := 0
  errors : ℕ := 0
  lastError : String := ""
  connectedMs : Option Int := none

/-- `note_message` at the wall clock `nowMs`. -/
def StreamStatus.noteMessage (st : StreamStatus) (rows : ℕ) (nowMs : Int) : StreamStatus :=
  { st with msgs := st.msgs + 1, rows := st.rows + rows, lastMsgMs := some nowMs }

def StreamStatus.noteError (st : StreamStatus) (e : String) : StreamStatus :=
  { st with errors := st.errors + 1, lastError := e }

inductive StreamHook
  | onConnect
  | onDisconnect
  deriving DecidableEq

/-- An attempt to connect that is over, with the session if there was one. -/
structure StreamAttempt where
  start : ℚ
  finish : ℚ
  error : Option String
  /-- What the stream sleeps after it; `none` if it stops. -/
  delay : Option ℚ

/-- Where `run_stream` is. -/
inductive StreamPc
  | starting
  | connecting (t0 : ℚ)
  /-- In the session: the reader, the pinger and the two timers run. -/
  | inSession (t0 : ℚ)
  /-- `on_disconnect` has fired and the socket is closed. -/
  | closing (t0 : ℚ) (error : Option String)
  | asleep (wake : ℚ)
  | stopped
  | cancelled

/-- What is known of a run of `run_stream`; `hooks`, `starts` and `attempts` record what it did. -/
structure Stream where
  clock : ℚ
  stop : Bool := false
  pc : StreamPc := .starting
  /-- `attempt` -/
  tries : Int := 0
  status : StreamStatus := {}
  hooks : List StreamHook := []
  starts : List ℚ := []
  attempts : List StreamAttempt := []

inductive StreamAct
  | elapse (dt : ℚ)
  | setStop
  /-- The loop goes on to the next attempt. -/
  | proceed
  /-- `connect()` fails. -/
  | refuse (e : String)
  /-- The socket is open. -/
  | connect (nowMs : Int)
  /-- `on_message` returns a number of rows or raises. -/
  | frame (answer : Except String ℕ) (nowMs : Int)
  /-- The first of the session's tasks is done, or a subscribe message could not be sent. -/
  | finish (error : Option String)
  /-- The socket is closed, which may raise. -/
  | close (error : Option String)
  | cancel

namespace Stream

variable (s : Stream)

def halt : Stream := { s with status := { s.status with state := .stopped }, pc := .stopped }

/-- The head of the loop. -/
def attempt : Stream :=
  if s.stop then s.halt
  else { s with
    status := { s.status with state := .connecting }
    pc := .connecting s.clock
    starts := s.starts ++ [s.clock] }

/-- The loop after `_session`, up to the sleep. -/
def conclude (t0 : ℚ) (error : Option String) : Stream :=
  let status := error.elim s.status s.status.noteError
  if s.stop then
    halt { s with status, attempts := s.attempts ++ [⟨t0, s.clock, error, none⟩] }
  else
    let tries := if s.clock - t0 > backoffResetAfterS then 0 else s.tries
    let delay := backoffSchedule tries
    { s with
      status := { status with reconnects := status.reconnects + 1, state := .backoff }
      tries := tries + 1
      pc := .asleep (s.clock + delay)
      attempts := s.attempts ++ [⟨t0, s.clock, error, some delay⟩] }

/-- `_reader` on one frame. -/
def read (answer : Except String ℕ) (nowMs : Int) : Stream :=
  match answer with
  | .ok n => { s with status := s.status.noteMessage n nowMs }
  | .error e => { s with status := (s.status.noteError e).noteMessage 0 nowMs }

def step (s : Stream) : StreamAct → Option Stream
  | .elapse dt => if 0 ≤ dt then some { s with clock := s.clock + dt } else none
  | .setStop => some { s with stop := true }
  | .proceed =>
    match s.pc with
    | .starting => some s.attempt
    -- `_wait_stop` returns once `stop` is set or the time is over
    | .asleep wake => if s.stop ∨ wake ≤ s.clock then some s.attempt else none
    | _ => none
  | .refuse e =>
    match s.pc with
    | .connecting t0 => some (s.conclude t0 (some e))
    | _ => none
  | .connect nowMs =>
    match s.pc with
    | .connecting t0 =>
      some { s with
        status := { s.status with state := .connected, connectedMs := some nowMs }
        pc := .inSession t0
        hooks := s.hooks ++ [.onConnect] }
    | _ => none
  | .frame answer nowMs =>
    match s.pc with
    | .inSession _ => some (s.read answer nowMs)
    | _ => none
  | .finish error =>
    match s.pc with
    | .inSession t0 => some { s with pc := .closing t0 error, hooks := s.hooks ++ [.onDisconnect] }
    | _ => none
  | .close error =>
    match s.pc with
    | .closing t0 error' => some (s.conclude t0 (error <|> error'))
    | _ => none
  | .cancel =>
    match s.pc with
    | .inSession _ => some { s with pc := .cancelled, hooks := s.hooks ++ [.onDisconnect] }
    | .connecting _ | .closing .. | .asleep _ => some { s with pc := .cancelled }
    | _ => none

def run (acts : List StreamAct) : Option Stream := Trace.run step s acts

/-- A stream that has been called. -/
def init (clock : ℚ) : Stream := { clock }

/-- The session is open. -/
def Connected : Prop := ∃ t0, s.pc = .inSession t0

end Stream

/-! ## The account of a run -/

/-- The alternating hooks, from `on_connect` on. -/
def alternating (n : ℕ) : List StreamHook :=
  (List.range n).map fun i => if i % 2 = 0 then .onConnect else .onDisconnect

theorem alternating_succ (n : ℕ) : alternating (n + 1) =
    alternating n ++ [if n % 2 = 0 then .onConnect else .onDisconnect] := by
  rw [alternating, List.range_succ, List.map_append]
  rfl

namespace StreamAct

def isConnect : StreamAct → Bool
  | .connect _ => true
  | _ => false

def isFrame : StreamAct → Bool
  | .frame .. => true
  | _ => false

def isBadFrame : StreamAct → Bool
  | .frame (.error _) _ => true
  | _ => false

/-- The rows that a frame gave. -/
def rows : StreamAct → ℕ
  | .frame (.ok n) _ => n
  | _ => 0

end StreamAct

namespace Stream

variable {s s' : Stream} {t0 : ℚ} {error : Option String}

section conclude

@[simp] theorem conclude_clock : (s.conclude t0 error).clock = s.clock := by
  unfold conclude
  split <;> rfl

@[simp] theorem conclude_hooks : (s.conclude t0 error).hooks = s.hooks := by
  unfold conclude
  split <;> rfl

@[simp] theorem conclude_starts : (s.conclude t0 error).starts = s.starts := by
  unfold conclude
  split <;> rfl

@[simp] theorem conclude_msgs : (s.conclude t0 error).status.msgs = s.status.msgs := by
  unfold conclude
  split <;> cases error <;> rfl

@[simp] theorem conclude_rows : (s.conclude t0 error).status.rows = s.status.rows := by
  unfold conclude
  split <;> cases error <;> rfl

theorem conclude_errors : (s.conclude t0 error).status.errors =
    s.status.errors + error.isSome.toNat := by
  unfold conclude
  split <;> cases error <;> rfl

theorem not_connected_conclude : ¬ (s.conclude t0 error).Connected := by
  rintro ⟨t, ht⟩
  unfold conclude at ht
  split at ht <;> cases ht

/-- The delay that the stream sleeps after an attempt. -/
def delayAfter (s : Stream) (t0 : ℚ) : Option ℚ :=
  if s.stop then none
  else some (backoffSchedule (if s.clock - t0 > backoffResetAfterS then 0 else s.tries))

theorem conclude_attempts : (s.conclude t0 error).attempts =
    s.attempts ++ [⟨t0, s.clock, error, s.delayAfter t0⟩] := by
  unfold conclude delayAfter
  split <;> rfl

theorem conclude_reconnects : (s.conclude t0 error).status.reconnects =
    s.status.reconnects + (s.delayAfter t0).isSome.toNat := by
  unfold conclude delayAfter
  split <;> cases error <;> rfl

end conclude

/-- What a run has done so far, from its actions. -/
structure Account (acts : List StreamAct) (s : Stream) : Prop where
  hooks : s.hooks = alternating s.hooks.length
  connected : s.hooks.length % 2 = 1 ↔ s.Connected
  sessions : s.hooks.count .onConnect = acts.countP StreamAct.isConnect
  msgs : s.status.msgs = acts.countP StreamAct.isFrame
  rows : s.status.rows = (acts.map StreamAct.rows).sum
  errors : s.status.errors =
    acts.countP StreamAct.isBadFrame + s.attempts.countP fun a => a.error.isSome
  reconnects : s.status.reconnects = s.attempts.countP fun a => a.delay.isSome

variable {acts : List StreamAct} {a : StreamAct}

theorem account_init (clock : ℚ) : Account [] (init clock) where
  hooks := rfl
  connected := ⟨fun h => (by cases h), fun ⟨_, h⟩ => (by cases h)⟩
  sessions := rfl
  msgs := rfl
  rows := rfl
  errors := rfl
  reconnects := rfl

/-- An action that neither opens a session nor reads a frame, and leaves the account. -/
theorem Account.quiet (H : Account acts s) (hc : a.isConnect = false) (hf : a.isFrame = false)
    (hb : a.isBadFrame = false) (hr : a.rows = 0) (hhooks : s'.hooks = s.hooks)
    (hconn : s'.Connected ↔ s.Connected) (hmsgs : s'.status.msgs = s.status.msgs)
    (hrows : s'.status.rows = s.status.rows)
    (herr : s'.status.errors + s.attempts.countP (fun a => a.error.isSome) =
      s.status.errors + s'.attempts.countP fun a => a.error.isSome)
    (hrec : s'.status.reconnects + s.attempts.countP (fun a => a.delay.isSome) =
      s.status.reconnects + s'.attempts.countP fun a => a.delay.isSome) :
    Account (acts ++ [a]) s' where
  hooks := by rw [hhooks]; exact H.hooks
  connected := by rw [hhooks, hconn]; exact H.connected
  sessions := by
    rw [hhooks, H.sessions, List.countP_append, List.countP_singleton, hc]
    rfl
  msgs := by
    rw [hmsgs, H.msgs, List.countP_append, List.countP_singleton, hf]
    rfl
  rows := by
    rw [hrows, H.rows, List.map_append, List.sum_append, List.map_singleton, List.sum_singleton,
      hr, Nat.add_zero]
  errors := by
    have h := H.errors
    rw [List.countP_append, List.countP_singleton, hb]
    simp only [Bool.false_eq_true, if_false]
    omega
  reconnects := by
    have h := H.reconnects
    omega

theorem Account.conclude (H : Account acts s) (hs : ¬ s.Connected) (hc : a.isConnect = false)
    (hf : a.isFrame = false) (hb : a.isBadFrame = false) (hr : a.rows = 0) :
    Account (acts ++ [a]) (s.conclude t0 error) := by
  refine H.quiet hc hf hb hr conclude_hooks (iff_of_false not_connected_conclude hs) conclude_msgs
    conclude_rows ?_ ?_
  · rw [conclude_errors, conclude_attempts, List.countP_append, List.countP_singleton]
    cases error <;> simp
    omega
  · rw [conclude_reconnects, conclude_attempts, List.countP_append, List.countP_singleton]
    cases s.delayAfter t0 <;> simp
    omega

/-- The session opens. -/
theorem Account.connect (H : Account acts s) (hs : ¬ s.Connected) (nowMs : Int) :
    Account (acts ++ [.connect nowMs]) { s with
      status := { s.status with state := .connected, connectedMs := some nowMs }
      pc := .inSession t0
      hooks := s.hooks ++ [.onConnect] } := by
  have heven : s.hooks.length % 2 = 0 := by
    have h := H.connected.not.mpr hs
    omega
  refine ⟨?_, ?_, ?_, ?_, ?_, ?_, H.reconnects⟩
  · change s.hooks ++ [_] = alternating (s.hooks ++ [_]).length
    rw [List.length_append, List.length_singleton, alternating_succ, if_pos heven, ← H.hooks]
  · refine iff_of_true ?_ ⟨t0, rfl⟩
    change (s.hooks ++ [_]).length % 2 = 1
    rw [List.length_append, List.length_singleton]
    omega
  · change (s.hooks ++ [_]).count _ = _
    rw [List.count_append, H.sessions, List.countP_append]
    rfl
  · exact H.msgs.trans (by rw [List.countP_append]; rfl)
  · exact H.rows.trans (by rw [List.map_append, List.sum_append]; rfl)
  · exact H.errors.trans (by rw [List.countP_append]; rfl)

/-- The session ends. -/
theorem Account.disconnect (H : Account acts s) (hs : s.Connected) {pc : StreamPc}
    (hpc : ∀ t, pc ≠ .inSession t) (hc : a.isConnect = false) (hf : a.isFrame = false)
    (hb : a.isBadFrame = false) (hr : a.rows = 0) :
    Account (acts ++ [a]) { s with pc := pc, hooks := s.hooks ++ [.onDisconnect] } := by
  have hodd : s.hooks.length % 2 = 1 := H.connected.mpr hs
  refine ⟨?_, ?_, ?_, ?_, ?_, ?_, H.reconnects⟩
  · change s.hooks ++ [_] = alternating (s.hooks ++ [_]).length
    rw [List.length_append, List.length_singleton, alternating_succ, if_neg (by omega), ← H.hooks]
  · refine iff_of_false ?_ fun ⟨t, ht⟩ => hpc t ht
    change ¬ (s.hooks ++ [_]).length % 2 = 1
    rw [List.length_append, List.length_singleton]
    omega
  · change (s.hooks ++ [_]).count _ = _
    rw [List.count_append, H.sessions, List.countP_append, List.countP_singleton, hc]
    rfl
  · exact H.msgs.trans (by rw [List.countP_append, List.countP_singleton, hf]; rfl)
  · refine H.rows.trans ?_
    rw [List.map_append, List.sum_append, List.map_singleton, List.sum_singleton, hr, Nat.add_zero]
  · exact H.errors.trans (by rw [List.countP_append, List.countP_singleton, hb]; rfl)

/-- A frame is read. -/
theorem Account.read (H : Account acts s) (answer : Except String ℕ) (nowMs : Int) :
    Account (acts ++ [.frame answer nowMs]) (s.read answer nowMs) := by
  cases answer with
  | ok n =>
    refine ⟨H.hooks, H.connected, ?_, ?_, ?_, ?_, H.reconnects⟩
    · exact H.sessions.trans (by rw [List.countP_append]; rfl)
    · change s.status.msgs + 1 = _
      rw [H.msgs, List.countP_append]
      rfl
    · change s.status.rows + n = _
      rw [H.rows, List.map_append, List.sum_append]
      rfl
    · exact H.errors.trans (by rw [List.countP_append]; rfl)
  | error e =>
    refine ⟨H.hooks, H.connected, ?_, ?_, ?_, ?_, H.reconnects⟩
    · exact H.sessions.trans (by rw [List.countP_append]; rfl)
    · change s.status.msgs + 1 = _
      rw [H.msgs, List.countP_append]
      rfl
    · exact H.rows.trans (by rw [List.map_append, List.sum_append]; rfl)
    · have hbad : (StreamAct.frame (.error e) nowMs).isBadFrame = true := rfl
      change s.status.errors + 1 = _ + s.attempts.countP _
      rw [H.errors, List.countP_append, List.countP_singleton, if_pos hbad]
      omega

theorem not_connected_of_pc (h : ∀ t, s.pc ≠ .inSession t) : ¬ s.Connected := fun ⟨t, ht⟩ => h t ht

theorem Account.attempt (H : Account acts s) (hs : ¬ s.Connected) :
    Account (acts ++ [.proceed]) s.attempt := by
  rw [Stream.attempt]
  split
  · exact H.quiet rfl rfl rfl rfl rfl (iff_of_false (fun ⟨_, h⟩ => by cases h) hs) rfl rfl rfl rfl
  · exact H.quiet rfl rfl rfl rfl rfl (iff_of_false (fun ⟨_, h⟩ => by cases h) hs) rfl rfl rfl rfl

theorem Account.cancel (H : Account acts s) (hs : ¬ s.Connected) :
    Account (acts ++ [.cancel]) { s with pc := .cancelled } :=
  H.quiet rfl rfl rfl rfl rfl (iff_of_false (fun ⟨_, h⟩ => by cases h) hs) rfl rfl rfl rfl

theorem Account.step (H : Account acts s) (h : s.step a = some s') : Account (acts ++ [a]) s' := by
  cases a with
  | elapse dt =>
    rw [Stream.step] at h
    split at h
    · cases h
      exact H.quiet rfl rfl rfl rfl rfl Iff.rfl rfl rfl rfl rfl
    · cases h
  | setStop =>
    cases h
    exact H.quiet rfl rfl rfl rfl rfl Iff.rfl rfl rfl rfl rfl
  | proceed =>
    rw [Stream.step] at h
    split at h
    · next hpc =>
      cases h
      exact H.attempt (not_connected_of_pc fun t => by rw [hpc]; exact StreamPc.noConfusion)
    · next hpc =>
      split at h
      · cases h
        exact H.attempt (not_connected_of_pc fun t => by rw [hpc]; exact StreamPc.noConfusion)
      · cases h
    · cases h
  | refuse e =>
    rw [Stream.step] at h
    split at h
    · next hpc =>
      cases h
      exact H.conclude (not_connected_of_pc fun t => by rw [hpc]; exact StreamPc.noConfusion)
        rfl rfl rfl rfl
    · cases h
  | connect nowMs =>
    rw [Stream.step] at h
    split at h
    · next hpc =>
      cases h
      exact H.connect (not_connected_of_pc fun t => by rw [hpc]; exact StreamPc.noConfusion) nowMs
    · cases h
  | frame answer nowMs =>
    rw [Stream.step] at h
    split at h
    · cases h
      exact H.read answer nowMs
    · cases h
  | finish error =>
    rw [Stream.step] at h
    split at h
    · next t hpc =>
      cases h
      exact H.disconnect ⟨t, hpc⟩ (fun _ => StreamPc.noConfusion) rfl rfl rfl rfl
    · cases h
  | close error =>
    rw [Stream.step] at h
    split at h
    · next hpc =>
      cases h
      exact H.conclude (not_connected_of_pc fun t => by rw [hpc]; exact StreamPc.noConfusion)
        rfl rfl rfl rfl
    · cases h
  | cancel =>
    rw [Stream.step] at h
    split at h
    · next t hpc =>
      cases h
      exact H.disconnect ⟨t, hpc⟩ (fun _ => StreamPc.noConfusion) rfl rfl rfl rfl
    · next hpc =>
      cases h
      exact H.cancel (not_connected_of_pc fun t => by rw [hpc]; exact StreamPc.noConfusion)
    · next hpc =>
      cases h
      exact H.cancel (not_connected_of_pc fun t => by rw [hpc]; exact StreamPc.noConfusion)
    · next hpc =>
      cases h
      exact H.cancel (not_connected_of_pc fun t => by rw [hpc]; exact StreamPc.noConfusion)
    · cases h

/-- In every run the hooks alternate, `on_connect` first, one of them is open exactly while a
session is, and the counters of the status are those of what happened. -/
theorem account {clock : ℚ} (h : (init clock).run acts = some s) : Account acts s :=
  Trace.invariant_acts (fun _ _ _ _ H ha => H.step ha) (account_init clock) h

theorem account_stopped : ∃ s, (init 0).run [.proceed, .connect 5, .frame (.ok 2) 6,
    .frame (.error "bad") 7, .setStop, .finish none, .close none] = some s ∧
    Account [.proceed, .connect 5, .frame (.ok 2) 6, .frame (.error "bad") 7, .setStop,
      .finish none, .close none] s :=
  ⟨_, rfl, account rfl⟩

end Stream

/-! ## The pace of the attempts -/

theorem backoffSchedule_mono {m n : Int} (h : m ≤ n) : backoffSchedule m ≤ backoffSchedule n := by
  have hpow {k : Int} : (2 : ℚ) ^ (if k < 0 then 0 else k).toNat = 2 ^ k.toNat := by
    split
    · next hk => rw [Int.toNat_of_nonpos (Int.le_of_lt hk), Int.toNat_zero]
    · rfl
  change min backoffMaxS (2 ^ _) ≤ min backoffMaxS (2 ^ _)
  rw [hpow, hpow]
  exact min_le_min_left _ (pow_le_pow_right₀ one_le_two (Int.toNat_le_toNat h))

/-- `attempt` after one more attempt to connect. -/
def triesAfter (tries : Int) (a : StreamAttempt) : Int :=
  (if a.finish - a.start > backoffResetAfterS then 0 else tries) + 1

/-- `attempt` after the attempts so far. -/
def triesOf (as : List StreamAttempt) : Int := as.foldl triesAfter 0

theorem triesOf_snoc (as : List StreamAttempt) (a : StreamAttempt) :
    triesOf (as ++ [a]) = triesAfter (triesOf as) a :=
  List.foldl_concat ..

theorem triesOf_nonneg (as : List StreamAttempt) : 0 ≤ triesOf as := by
  induction as using List.reverseRecOn with
  | nil => exact le_rfl
  | append_singleton as a ih =>
    rw [triesOf_snoc, triesAfter]
    split <;> omega

/-- What the stream waits after an attempt that follows `tries` others. -/
def delayOf (tries : Int) (a : StreamAttempt) : ℚ :=
  backoffSchedule (if a.finish - a.start > backoffResetAfterS then 0 else tries)

/-- The attempt under way. -/
def StreamPc.pending : StreamPc → List ℚ
  | .connecting t0 | .inSession t0 | .closing t0 _ => [t0]
  | _ => []

namespace Stream

variable {s s' : Stream} {t0 : ℚ} {error : Option String} {acts : List StreamAct} {a : StreamAct}

/-- The attempts of a run so far: each starts no sooner than the delay of the one before it is
over. -/
structure Paced (s : Stream) : Prop where
  tries : s.pc ≠ .stopped → s.tries = triesOf s.attempts
  begun : s.pc = .starting → s.attempts = []
  starts : ∃ p, s.starts = s.attempts.map (·.start) ++ p ∧ p.length ≤ 1 ∧
    (s.pc ≠ .cancelled → p = s.pc.pending)
  now : ∀ t ∈ s.pc.pending, t ≤ s.clock
  asleep : ∀ wake, s.pc = .asleep wake → ∃ as a, s.attempts = as ++ [a] ∧
    wake = a.finish + delayOf (triesOf as) a
  gaps : ∀ i a, s.attempts[i]? = some a → a.start ≤ a.finish ∧
    ∀ t, s.starts[i + 1]? = some t → a.finish + delayOf (triesOf (s.attempts.take i)) a ≤ t

theorem paced_init (clock : ℚ) : Paced (init clock) where
  tries _ := rfl
  begun _ := rfl
  starts := ⟨[], rfl, Nat.zero_le 1, fun _ => rfl⟩
  now _ ht := nomatch ht
  asleep _ h := by cases h
  gaps i a h := by cases h

/-- Time passes, or the attempt under way goes on. -/
theorem Paced.quiet (H : Paced s) (hclock : s.clock ≤ s'.clock)
    (hpc : s'.pc = s.pc ∨ ∃ t, s.pc.pending = [t] ∧ s'.pc.pending = [t])
    (htries : s'.tries = s.tries) (hstarts : s'.starts = s.starts)
    (hattempts : s'.attempts = s.attempts) : Paced s' := by
  have hpending : s'.pc.pending = s.pc.pending := by
    rcases hpc with hpc | ⟨t, ht, ht'⟩
    · rw [hpc]
    · rw [ht, ht']
  refine ⟨?_, ?_, ?_, ?_, ?_, ?_⟩
  · rw [htries, hattempts]
    rcases hpc with hpc | ⟨t, ht, -⟩
    · rw [hpc]
      exact H.tries
    · exact fun _ => H.tries fun h => by rw [h] at ht; cases ht
  · rw [hattempts]
    rcases hpc with hpc | ⟨t, -, ht⟩
    · rw [hpc]
      exact H.begun
    · exact fun h => by rw [h] at ht; cases ht
  · obtain ⟨p, hp, hlen, hpend⟩ := H.starts
    refine ⟨p, by rw [hstarts, hattempts, hp], hlen, ?_⟩
    rw [hpending]
    rcases hpc with hpc | ⟨t, ht, -⟩
    · rw [hpc]
      exact hpend
    · exact fun _ => hpend fun h => by rw [h] at ht; cases ht
  · rw [hpending]
    exact fun t ht => (H.now t ht).trans hclock
  · rw [hattempts]
    rcases hpc with hpc | ⟨t, -, ht⟩
    · rw [hpc]
      exact H.asleep
    · exact fun wake h => by rw [h] at ht; cases ht
  · rw [hattempts, hstarts]
    exact H.gaps

theorem Paced.halt (H : Paced s) (hs : s.pc.pending = []) (hc : s.pc ≠ .cancelled) :
    Paced s.halt where
  tries h := absurd rfl h
  begun h := by cases h
  starts := by
    obtain ⟨p, hp, hlen, hpend⟩ := H.starts
    exact ⟨p, hp, hlen, fun _ => (hpend hc).trans hs⟩
  now t ht := nomatch ht
  asleep _ h := by cases h
  gaps := H.gaps

theorem Paced.cancel (H : Paced s) (hs : s.pc ≠ .stopped) (hooks : List StreamHook) :
    Paced { s with pc := .cancelled, hooks } where
  tries _ := H.tries hs
  begun h := by cases h
  starts := by
    obtain ⟨p, hp, hlen, -⟩ := H.starts
    exact ⟨p, hp, hlen, fun h => absurd rfl h⟩
  now t ht := nomatch ht
  asleep _ h := by cases h
  gaps := H.gaps

/-- A new attempt starts. -/
theorem Paced.attempt (H : Paced s)
    (hs : s.pc = .starting ∨ ∃ wake, s.pc = .asleep wake ∧ (s.stop ∨ wake ≤ s.clock)) :
    Paced s.attempt := by
  have hpending : s.pc.pending = [] := by
    rcases hs with hs | ⟨wake, hs, -⟩ <;> rw [hs] <;> rfl
  have hcancel : s.pc ≠ .cancelled := by
    rcases hs with hs | ⟨wake, hs, -⟩ <;> rw [hs] <;> exact StreamPc.noConfusion
  have hstopped : s.pc ≠ .stopped := by
    rcases hs with hs | ⟨wake, hs, -⟩ <;> rw [hs] <;> exact StreamPc.noConfusion
  rw [Stream.attempt]
  split
  · exact H.halt hpending hcancel
  · next hstop =>
    obtain ⟨p, hp, -, hpend⟩ := H.starts
    have hstarts : s.starts = s.attempts.map (·.start) := by
      rw [hp, hpend hcancel, hpending, List.append_nil]
    refine ⟨fun _ => H.tries hstopped, fun h => (by cases h), ?_, ?_, fun _ h => (by cases h), ?_⟩
    · exact ⟨[s.clock], by rw [hstarts], le_rfl, fun _ => rfl⟩
    · exact fun t ht => (List.mem_singleton.mp ht).le
    · refine fun i a ha => ⟨(H.gaps i a ha).1, fun t ht => ?_⟩
      replace ht : (s.starts ++ [s.clock])[i + 1]? = some t := ht
      have hi : i < s.attempts.length := (List.getElem?_eq_some_iff.mp ha).1
      have hlen : s.starts.length = s.attempts.length := by rw [hstarts, List.length_map]
      by_cases hlast : i + 1 < s.starts.length
      · rw [List.getElem?_append_left hlast] at ht
        exact (H.gaps i a ha).2 t ht
      -- the attempt before the new one is the one that the stream has slept after
      · rw [show i + 1 = s.starts.length by omega, List.getElem?_concat_length] at ht
        cases ht
        rcases hs with hs | ⟨wake, hs, hwake⟩
        · rw [H.begun hs] at ha
          cases ha
        · obtain ⟨as, b, has, rfl⟩ := H.asleep wake hs
          have hi' : i = as.length := by
            rw [has, List.length_append, List.length_singleton] at hlen hi
            omega
          rw [has, hi', List.getElem?_concat_length] at ha
          cases ha
          rw [has, hi', List.take_left']
          exacts [hwake.resolve_left hstop, rfl]

@[simp] theorem conclude_pending : (s.conclude t0 error).pc.pending = [] := by
  unfold Stream.conclude
  split <;> rfl

theorem Paced.conclude (H : Paced s) (hs : s.pc.pending = [t0]) : Paced (s.conclude t0 error) := by
  have hcancel : s.pc ≠ .cancelled := fun h => by rw [h] at hs; cases hs
  have hstopped : s.pc ≠ .stopped := fun h => by rw [h] at hs; cases hs
  obtain ⟨p, hp, -, hpend⟩ := H.starts
  have hstarts : s.starts = s.attempts.map (·.start) ++ [t0] := by rw [hp, hpend hcancel, hs]
  have htries := H.tries hstopped
  refine ⟨?_, ?_, ?_, ?_, ?_, ?_⟩
  · rw [conclude_attempts, triesOf_snoc, ← htries]
    unfold Stream.conclude
    split
    · exact fun h => absurd rfl h
    · exact fun _ => rfl
  · unfold Stream.conclude
    split <;> exact fun h => by cases h
  · refine ⟨[], ?_, Nat.zero_le 1, fun _ => conclude_pending.symm⟩
    rw [conclude_starts, conclude_attempts, hstarts, List.map_append, List.append_nil]
    rfl
  · rw [conclude_pending]
    exact fun t ht => nomatch ht
  · intro wake hwake
    refine ⟨s.attempts, _, conclude_attempts, ?_⟩
    unfold Stream.conclude at hwake
    split at hwake
    · cases hwake
    · cases hwake
      rw [← htries]
      rfl
  · intro i a ha
    rw [conclude_attempts] at ha ⊢
    rw [conclude_starts]
    by_cases hi : i < s.attempts.length
    · rw [List.getElem?_append_left hi] at ha
      rw [List.take_append_of_le_length hi.le]
      exact H.gaps i a ha
    · have hlen := (List.getElem?_eq_some_iff.mp ha).1
      rw [List.length_append, List.length_singleton] at hlen
      obtain rfl : i = s.attempts.length := by omega
      rw [List.getElem?_concat_length] at ha
      cases ha
      refine ⟨H.now t0 (by rw [hs]; exact List.mem_singleton_self t0), fun t ht => ?_⟩
      rw [List.getElem?_eq_none (by rw [hstarts]; simp)] at ht
      cases ht

theorem Paced.step (H : Paced s) (h : s.step a = some s') : Paced s' := by
  cases a with
  | elapse dt =>
    rw [Stream.step] at h
    split at h
    · next hdt =>
      cases h
      exact H.quiet (le_add_of_nonneg_right hdt) (.inl rfl) rfl rfl rfl
    · cases h
  | setStop =>
    cases h
    exact H.quiet le_rfl (.inl rfl) rfl rfl rfl
  | proceed =>
    rw [Stream.step] at h
    split at h
    · next hpc =>
      cases h
      exact H.attempt (.inl hpc)
    · next wake hpc =>
      split at h
      · next hwake =>
        cases h
        exact H.attempt (.inr ⟨wake, hpc, hwake⟩)
      · cases h
    · cases h
  | refuse e =>
    rw [Stream.step] at h
    split at h
    · next hpc =>
      cases h
      exact H.conclude (by rw [hpc]; rfl)
    · cases h
  | connect nowMs =>
    rw [Stream.step] at h
    split at h
    · next t hpc =>
      cases h
      exact H.quiet le_rfl (.inr ⟨t, by rw [hpc]; rfl, rfl⟩) rfl rfl rfl
    · cases h
  | frame answer nowMs =>
    rw [Stream.step] at h
    split at h
    · cases h
      unfold Stream.read
      split <;> exact H.quiet le_rfl (.inl rfl) rfl rfl rfl
    · cases h
  | finish error =>
    rw [Stream.step] at h
    split at h
    · next t hpc =>
      cases h
      exact H.quiet le_rfl (.inr ⟨t, by rw [hpc]; rfl, rfl⟩) rfl rfl rfl
    · cases h
  | close error =>
    rw [Stream.step] at h
    split at h
    · next hpc =>
      cases h
      exact H.conclude (by rw [hpc]; rfl)
    · cases h
  | cancel =>
    have hcancel {hooks : List StreamHook} (hs : s.pc ≠ .stopped) :=
      H.cancel hs hooks
    rw [Stream.step] at h
    split at h
    · next hpc =>
      cases h
      exact hcancel (by rw [hpc]; exact StreamPc.noConfusion)
    · next hpc =>
      cases h
      exact hcancel (by rw [hpc]; exact StreamPc.noConfusion)
    · next hpc =>
      cases h
      exact hcancel (by rw [hpc]; exact StreamPc.noConfusion)
    · next hpc =>
      cases h
      exact hcancel (by rw [hpc]; exact StreamPc.noConfusion)
    · cases h

theorem paced_of_run {clock : ℚ} (h : (init clock).run acts = some s) : Paced s :=
  Trace.invariant (fun _ _ _ H ha => H.step ha) (paced_init clock) h

/-- A connection that did not outlive the reset is counted. -/
theorem le_triesOf_take {as : List StreamAttempt} {i : ℕ} :
    ∀ n, (∀ j < n, ∃ a, as[i + j]? = some a ∧ a.finish - a.start ≤ backoffResetAfterS) →
      (n : Int) ≤ triesOf (as.take (i + n)) := by
  intro n
  induction n with
  | zero => exact fun _ => triesOf_nonneg _
  | succ n ih =>
    intro h
    obtain ⟨a, ha, hshort⟩ := h n (Nat.lt_succ_self n)
    have hprev := ih fun j hj => h j (Nat.lt_succ_of_lt hj)
    rw [← Nat.add_assoc, List.take_add_one, ha, Option.toList_some, triesOf_snoc, triesAfter,
      if_neg (not_lt.mpr hshort)]
    omega

/-- The attempt before a start is over, and the delay after it too. -/
theorem Paced.next_start (H : Paced s) {i : ℕ} {t : ℚ} (ht : s.starts[i + 1]? = some t) :
    ∃ a, s.attempts[i]? = some a ∧ s.starts[i]? = some a.start ∧
      a.start + delayOf (triesOf (s.attempts.take i)) a ≤ t := by
  obtain ⟨p, hp, hlen, -⟩ := H.starts
  have hi := (List.getElem?_eq_some_iff.mp ht).1
  rw [hp, List.length_append, List.length_map] at hi
  have hi' : i < s.attempts.length := by omega
  have ha := List.getElem?_eq_getElem hi'
  obtain ⟨hfin, hgap⟩ := H.gaps i _ ha
  refine ⟨_, ha, ?_, by linarith [hgap t ht]⟩
  rw [hp, List.getElem?_append_left (by rwa [List.length_map]), List.getElem?_map, ha]
  rfl

/-- While no connection lives for longer than `BACKOFF_RESET_AFTER_S`, `n` attempts to connect take
at least the first `n` delays of the schedule. -/
theorem pace {clock : ℚ} (h : (init clock).run acts = some s) {i n : ℕ} {t t' : ℚ}
    (ht : s.starts[i]? = some t) (ht' : s.starts[i + n]? = some t')
    (hshort : ∀ j < n, ∀ a, s.attempts[i + j]? = some a →
      a.finish - a.start ≤ backoffResetAfterS) :
    t + ∑ j ∈ Finset.range n, backoffSchedule j ≤ t' := by
  have H := paced_of_run h
  induction n generalizing t' with
  | zero =>
    rw [Nat.add_zero, ht] at ht'
    cases ht'
    simp
  | succ n ih =>
    obtain ⟨a, ha, hstart, hgap⟩ :
        ∃ a, s.attempts[i + n]? = some a ∧ s.starts[i + n]? = some a.start ∧
          a.start + delayOf (triesOf (s.attempts.take (i + n))) a ≤ t' := H.next_start ht'
    have hprev := ih hstart fun j hj => hshort j (Nat.lt_succ_of_lt hj)
    have hn : (n : Int) ≤ triesOf (s.attempts.take (i + n)) := by
      refine le_triesOf_take n fun j hj => ?_
      have hi := (List.getElem?_eq_some_iff.mp ha).1
      have hj' := List.getElem?_eq_getElem (show i + j < s.attempts.length by omega)
      exact ⟨_, hj', hshort j (Nat.lt_succ_of_lt hj) _ hj'⟩
    have hdelay : backoffSchedule n ≤ delayOf (triesOf (s.attempts.take (i + n))) a := by
      rw [delayOf, if_neg (not_lt.mpr (hshort n (Nat.lt_succ_self n) a ha))]
      exact backoffSchedule_mono hn
    rw [Finset.sum_range_succ]
    linarith

/-- A connection that times out after five seconds, and one that is refused at once. -/
def refusedActs : List StreamAct :=
  [.proceed, .elapse 5, .refuse "timeout", .elapse 1, .proceed, .refuse "connection refused",
    .elapse 2, .proceed]

/-- The second attempt follows the end of the first one after a second, the third the second one
after two. -/
theorem pace_refused : ∃ s t t', (init 0).run refusedActs = some s ∧ s.starts = [t, 6, t'] ∧
    t + ∑ j ∈ Finset.range 2, backoffSchedule j ≤ t' := by
  have hrun : ∃ s, (init 0).run refusedActs = some s ∧ s.starts = [0, 6, 8] ∧
      ∀ a ∈ s.attempts, a.finish - a.start ≤ backoffResetAfterS := by
    norm_num [refusedActs, run, Trace.run, init, step, attempt, conclude, backoffSchedule,
      backoffMaxS, backoffResetAfterS]
  obtain ⟨s, hs, hstarts, hshort⟩ := hrun
  exact ⟨s, 0, 8, hs, hstarts, pace hs (i := 0) (by rw [hstarts]; rfl) (by rw [hstarts]; rfl)
    fun j _ a ha => hshort a (List.mem_of_getElem? ha)⟩

end Stream

end P300
