import P300.Micro.Reach
import P300.Micro.Resync
import P300.Micro.Stream

/-!
# The depth stream at work

`collector.py` runs the depth stream with `DepthHandler` as its callback and its hooks, and beside
it `resync_loop` and a `sampler` for each symbol, all on one event loop. A row of `depth_1s` that
says `in_sync` was sampled in a session, from a book whose snapshot was applied in that session.
-/

namespace P300

def StreamHook.act : StreamHook → ResyncAct
  | .onConnect => .connect
  | .onDisconnect => .disconnect

namespace Stream

/-- A session is open. -/
def isOpen (s : Stream) : Bool :=
  match s.pc with
  | .inSession _ => true
  | _ => false

/-- How many sessions have been opened. -/
def sessions (s : Stream) : ℕ := s.hooks.count .onConnect

end Stream

/-- The answer to a request loads the book. -/
def DepthHandler.loads (h : DepthHandler) (symbol : String) (nowMs : Int) : SnapshotAnswer → Bool
  | .body snap => h.connected && ((h.books symbol).applySnapshot snap nowMs).isSome
  | _ => false

/-- A row that `take_sample` has written, and what was so at that time. -/
structure DepthSample where
  symbol : String
  row : DepthRow
  isOpen : Bool
  /-- The session that is open, or the last one. -/
  session : ℕ
  /-- The session in which the book's snapshot was applied. -/
  loadedIn : Option ℕ
  /-- When the book was last touched. -/
  lastEventMs : Option Int

structure LiveDepth where
  stream : Stream
  sys : ResyncSys
  loadedIn : String → Option ℕ := fun _ => none
  samples : List DepthSample := []

inductive LiveAct
  | elapse (dt : ℚ)
  | setStop
  /-- The stream goes on, or reads a frame that is for no book. -/
  | socket (a : StreamAct)
  /-- The stream reads a depth event. -/
  | event (symbol : String) (ev : DepthEvent) (nowMs : Int)
  /-- `resync_loop` goes on. -/
  | resync
  | answer (symbol : String) (a : SnapshotAnswer) (nowMs : Int)
  /-- `take_sample` -/
  | sample (symbol : String) (nowMs : Int)

namespace LiveDepth

variable (s : LiveDepth)

/-- The stream goes on, and its hooks are the handler's. -/
def socket (a : StreamAct) : Option LiveDepth := do
  let stream ← s.stream.step a
  let fired := stream.hooks.drop s.stream.hooks.length
  let sys ← s.sys.run (fired.map StreamHook.act)
  return { s with stream, sys }

def takeSample (symbol : String) (nowMs : Int) : LiveDepth :=
  let book := s.sys.handler.books symbol
  match book.sample symbol (nowMs - nowMs % 1000) nowMs "binance" with
  | none => s
  | some row => { s with
      samples := s.samples ++ [{
        symbol, row
        isOpen := s.stream.isOpen
        session := s.stream.sessions
        loadedIn := s.loadedIn symbol
        lastEventMs := book.lastEventMs }] }

def step : LiveAct → Option LiveDepth
  | .elapse dt => do
    let stream ← s.stream.step (.elapse dt)
    let sys ← s.sys.step (.elapse dt)
    return { s with stream, sys }
  | .setStop => do
    let stream ← s.stream.step .setStop
    let sys ← s.sys.step .setStop
    return { s with stream, sys }
  | .socket (.elapse _) | .socket .setStop => none
  | .socket a => if s.sys.Awaiting then s.socket a else none
  | .event symbol ev nowMs => do
    let stream ← s.stream.step (.frame (.ok 0) nowMs)
    let sys ← s.sys.step (.message symbol ev nowMs)
    return { s with stream, sys }
  | .resync => do
    let sys ← s.sys.step .proceed
    return { s with sys }
  | .answer symbol a nowMs =>
    match s.sys.pc with
    | .requesting _ symbol' _ => do
      if symbol' = symbol then
        let sys ← s.sys.step (.answer a nowMs)
        return { s with
          sys
          loadedIn :=
            if s.sys.handler.loads symbol nowMs a then
              Function.update s.loadedIn symbol (some s.stream.sessions)
            else s.loadedIn }
      else none
    | _ => none
  | .sample symbol nowMs =>
    if s.sys.Awaiting ∧ symbol ∈ s.sys.handler.symbols then some (s.takeSample symbol nowMs)
    else none

def run (acts : List LiveAct) : Option LiveDepth := Trace.run step s acts

/-- Before the tasks start. -/
def init (symbols : List String) (nodup : symbols.Nodup) (minGapS clock : ℚ) : LiveDepth where
  stream := .init clock
  sys := .init symbols nodup minGapS clock

end LiveDepth

/-- What can arrive: any event of the symbol's chain at any time, and snapshots of its book. -/
def LiveAct.Delivered (x : String → FiniteExchange) : LiveAct → Prop
  | .event symbol ev _ => ev ∈ (x symbol).events
  | .answer symbol (.body snap) _ => (∃ id, (x symbol).Near id snap) ∨
      snap.lastUpdateId = none ∨ levels_ snap.bids = none ∨ levels_ snap.asks = none
  | _ => True

/-- The row is from a book that was loaded in the session that is open, was touched within
`STALE_MS`, and has no more in a bucket than the exchange has, before the sums are rounded. -/
structure DepthSample.Mirrors (x : String → FiniteExchange) (r : DepthSample) : Prop where
  isOpen : r.isOpen = true
  loaded : r.loadedIn = some r.session
  fresh : ∀ last ∈ r.lastEventMs, r.row.receivedMs - last ≤ staleMs
  below : ∃ id, r.row.lastUpdateId = some id ∧ r.row.BoundsBelow (x r.symbol) id

/-! ## The books -/

namespace LocalBook

variable {b : LocalBook} {ev : DepthEvent} {nowMs : Int}

/-- No event brings a book in sync. -/
theorem inSync_of_applyEvent (h : (b.applyEvent ev nowMs).1.inSync = true) : b.inSync = true := by
  have hhold {b : LocalBook} (h : (b.hold ev).inSync = true) : b.inSync = true := by
    change (if _ then _ else _ : LocalBook).inSync = true at h
    split at h <;> exact h
  unfold applyEvent at h
  split at h
  · simp only at h
    split at h
    · exact h
    · split at h
      · split at h
        · cases hhold h
        · exact h
      · split at h
        · cases hhold h
        · exact h
  · exact hhold h

/-- What a row says of the book besides its levels. -/
theorem sample_tags {symbol venue : String} {tsMs receivedMs : Int} {row : DepthRow}
    (h : b.sample symbol tsMs receivedMs venue = some row) :
    row.inSync = (b.inSync && !b.isStale receivedMs) ∧ row.lastUpdateId = b.lastUpdateId ∧
      row.receivedMs = receivedMs := by
  rw [sample] at h
  obtain ⟨mid, -, h⟩ := Option.bind_eq_some_iff.mp h
  split at h <;> cases h
  exact ⟨rfl, rfl, rfl⟩

theorem le_staleMs_of_not_isStale {last : Int} (h : b.isStale nowMs = false)
    (hlast : b.lastEventMs = some last) : nowMs - last ≤ staleMs := by
  rw [isStale, hlast] at h
  exact not_lt.mp (of_decide_eq_false h)

end LocalBook

/-- What holds of a handler in the session `n`: the books follow the exchange, and one in sync was
loaded in this session, which is open. -/
structure DepthHandler.Live (x : String → FiniteExchange) (n : ℕ) (loadedIn : String → Option ℕ)
    (h : DepthHandler) : Prop where
  synced : ∀ symbol, (h.books symbol).Synced (x symbol).toExchange (x symbol).nearClaim
  loaded : ∀ symbol, (h.books symbol).inSync = true → h.connected = true ∧
    loadedIn symbol = some n

namespace DepthHandler

variable {x : String → FiniteExchange} {n n' : ℕ} {loadedIn : String → Option ℕ}
  {h h' : DepthHandler}

/-- Nothing but the books and the connection matters. -/
theorem Live.of_eq (H : h.Live x n loadedIn) (hbooks : h'.books = h.books)
    (hconn : h'.connected = h.connected) : h'.Live x n loadedIn where
  synced := by rw [hbooks]; exact H.synced
  loaded := by rw [hbooks, hconn]; exact H.loaded

/-- All books are out of sync. -/
theorem Live.markOutOfSync (H : h.Live x n loadedIn) {why : String}
    (hbooks : h'.books = fun symbol => (h.books symbol).markOutOfSync why) :
    h'.Live x n' loadedIn where
  synced symbol := by rw [hbooks]; exact (H.synced symbol).markOutOfSync why
  loaded symbol hs := by rw [hbooks] at hs; cases hs

theorem Live.onConnect (H : h.Live x n loadedIn) : h.onConnect.Live x n' loadedIn :=
  H.markOutOfSync rfl

theorem Live.onDisconnect (H : h.Live x n loadedIn) : h.onDisconnect.Live x n loadedIn := by
  unfold DepthHandler.onDisconnect
  split
  · exact H.markOutOfSync rfl
  · exact H

/-- One book is another one. -/
theorem Live.setBook (H : h.Live x n loadedIn) {symbol : String} {b : LocalBook}
    {loadedIn' : String → Option ℕ} (hbooks : h'.books = Function.update h.books symbol b)
    (hconn : h'.connected = h.connected) (hother : ∀ s ≠ symbol, loadedIn' s = loadedIn s)
    (hb : b.Synced (x symbol).toExchange (x symbol).nearClaim)
    (hloaded : b.inSync = true → h.connected = true ∧ loadedIn' symbol = some n) :
    h'.Live x n loadedIn' := by
  refine ⟨fun s => ?_, fun s hs => ?_⟩
  · rw [hbooks]
    by_cases hsym : s = symbol
    · subst hsym
      rw [Function.update_self]
      exact hb
    · rw [Function.update_of_ne hsym]
      exact H.synced s
  · rw [hbooks] at hs
    rw [hconn]
    by_cases hsym : s = symbol
    · subst hsym
      rw [Function.update_self] at hs
      exact hloaded hs
    · rw [Function.update_of_ne hsym] at hs
      rw [hother s hsym]
      exact H.loaded s hs

theorem Live.onMessage (H : h.Live x n loadedIn) {symbol : String} {ev : DepthEvent}
    (hev : ev ∈ (x symbol).events) (nowMs : Int) :
    (h.onMessage symbol ev nowMs).Live x n loadedIn := by
  unfold DepthHandler.onMessage
  split
  · exact H.setBook rfl rfl (fun _ _ => rfl)
      ((H.synced symbol).applyEvent (x symbol).nearClaim_keeps hev nowMs)
      fun hs => H.loaded symbol (LocalBook.inSync_of_applyEvent hs)
  · exact H

/-- The answer to a request, and the session in which the books are loaded after it. -/
theorem Live.resyncOnce (H : h.Live x n loadedIn) {symbol : String} {a : SnapshotAnswer}
    {nowMs : Int} (ha : (LiveAct.answer symbol a nowMs).Delivered x) (clock : ℚ) :
    (h.resyncOnce symbol clock nowMs a).Live x n
      (if h.loads symbol nowMs a then Function.update loadedIn symbol (some n) else loadedIn) := by
  cases a with
  | rateLimited retryAfterS => exact H.of_eq rfl rfl
  | failed => exact H.of_eq rfl rfl
  | body snap =>
    by_cases hconn : h.connected = true
    · have hstep : ((h.books symbol).step (.snapshot snap nowMs)).Synced _ (x symbol).nearClaim :=
        (H.synced symbol).step (x symbol).nearClaim_keeps (fun _ _ hs => Exchange.Near.loads hs) ha
      rw [LocalBook.step] at hstep
      have hloads : h.loads symbol nowMs (.body snap) =
          ((h.books symbol).applySnapshot snap nowMs).isSome := by
        rw [DepthHandler.loads, hconn, Bool.true_and]
      rw [hloads, DepthHandler.resyncOnce, if_pos hconn]
      dsimp only
      cases hsnap : (h.books symbol).applySnapshot snap nowMs with
      | none =>
        rw [Option.isSome_none, if_neg Bool.false_ne_true]
        exact H.of_eq rfl rfl
      | some loaded =>
        obtain ⟨b, ok⟩ := loaded
        rw [hsnap] at hstep
        rw [Option.isSome_some, if_pos rfl]
        have hset : DepthHandler.Live x n (Function.update loadedIn symbol (some n))
            { h with books := Function.update h.books symbol b } :=
          H.setBook rfl rfl (fun s hs => Function.update_of_ne hs ..) hstep
            fun _ => ⟨hconn, Function.update_self ..⟩
        dsimp only
        split <;> exact hset.of_eq rfl rfl
    · have hloads : h.loads symbol nowMs (.body snap) = false := by
        rw [DepthHandler.loads, Bool.eq_false_iff.mpr hconn, Bool.false_and]
      rw [hloads, DepthHandler.resyncOnce, if_neg hconn]
      exact H

end DepthHandler

/-! ## The run -/

namespace Stream

variable {s s' : Stream} {a : StreamAct}

/-- One action fires one hook at most. -/
theorem hooks_of_step (h : s.step a = some s') : s'.hooks = s.hooks ∨
    ∃ hook, s'.hooks = s.hooks ++ [hook] := by
  cases a with
  | elapse dt =>
    rw [Stream.step] at h
    split at h <;> cases h
    exact .inl rfl
  | setStop =>
    cases h
    exact .inl rfl
  | proceed =>
    have hattempt : s.attempt.hooks = s.hooks := by
      unfold Stream.attempt
      split <;> rfl
    rw [Stream.step] at h
    split at h
    · cases h
      exact .inl hattempt
    · split at h <;> cases h
      exact .inl hattempt
    · cases h
  | refuse e =>
    rw [Stream.step] at h
    split at h <;> cases h
    exact .inl conclude_hooks
  | connect nowMs =>
    rw [Stream.step] at h
    split at h <;> cases h
    exact .inr ⟨_, rfl⟩
  | frame answer nowMs =>
    rw [Stream.step] at h
    split at h <;> cases h
    unfold Stream.read
    split <;> exact .inl rfl
  | finish error =>
    rw [Stream.step] at h
    split at h <;> cases h
    exact .inr ⟨_, rfl⟩
  | close error =>
    rw [Stream.step] at h
    split at h <;> cases h
    exact .inl conclude_hooks
  | cancel =>
    rw [Stream.step] at h
    split at h <;> cases h
    · exact .inr ⟨_, rfl⟩
    all_goals exact .inl rfl

theorem isOpen_iff : s.isOpen = true ↔ s.Connected := by
  unfold Stream.isOpen Connected
  split
  · next t hpc => exact iff_of_true rfl ⟨t, hpc⟩
  · next hpc => exact iff_of_false Bool.false_ne_true fun ⟨t, ht⟩ => hpc t ht

/-- The last hook tells whether a session is open. -/
theorem Account.connected_iff_getLast? {acts : List StreamAct} (H : Account acts s) :
    s.Connected ↔ s.hooks.getLast? = some .onConnect := by
  rw [← H.connected, H.hooks]
  generalize s.hooks.length = n
  cases n with
  | zero => exact iff_of_false (fun h => by cases h) fun h => by cases h
  | succ n =>
    rw [alternating_succ, List.getLast?_concat, List.length_append, List.length_singleton]
    have hlen : (alternating n).length = n := by
      rw [alternating, List.length_map, List.length_range]
    rw [hlen]
    split
    · exact iff_of_true (by omega) rfl
    · exact iff_of_false (by omega) fun h => by cases h

end Stream

namespace DepthHandler

variable (h : DepthHandler) (symbol : String)

theorem onMessage_connected (ev : DepthEvent) (nowMs : Int) :
    (h.onMessage symbol ev nowMs).connected = h.connected := by
  unfold onMessage
  split <;> rfl

theorem onDisconnect_connected : h.onDisconnect.connected = false := by
  unfold onDisconnect
  split
  · rfl
  · next hconn => exact Bool.eq_false_iff.mpr hconn

theorem resyncOnce_connected (clock : ℚ) (nowMs : Int) (a : SnapshotAnswer) :
    (h.resyncOnce symbol clock nowMs a).connected = h.connected := by
  cases a with
  | rateLimited => rfl
  | failed => rfl
  | body snap =>
    unfold resyncOnce
    dsimp only
    split
    · split
      · rfl
      · split <;> rfl
    · rfl

end DepthHandler

/-- `resync_loop` by itself leaves the books and the connection. -/
theorem ResyncSys.handler_of_proceed {s s' : ResyncSys} (h : s.proceed = some s') :
    s'.handler.books = s.handler.books ∧ s'.handler.connected = s.handler.connected := by
  rw [ResyncSys.proceed] at h
  split at h
  · split at h
    · cases h
    · split at h <;> cases h <;> exact ⟨rfl, rfl⟩
  · cases h
    exact ⟨rfl, rfl⟩
  · split at h <;> cases h <;> exact ⟨rfl, rfl⟩
  · cases h
  · split at h <;> cases h <;> exact ⟨rfl, rfl⟩

namespace LiveDepth

variable {x : String → FiniteExchange} {s s' : LiveDepth} {symbol : String} {nowMs : Int}

/-- What holds at all times. -/
structure Sound (x : String → FiniteExchange) (s : LiveDepth) : Prop where
  account : ∃ acts, s.stream.Account acts
  hooked : s.sys.handler.connected = true ↔ s.stream.hooks.getLast? = some .onConnect
  live : s.sys.handler.Live x s.stream.sessions s.loadedIn
  samples : ∀ r ∈ s.samples, r.row.inSync = true → r.Mirrors x

theorem Sound.connected_iff (H : s.Sound x) :
    s.sys.handler.connected = true ↔ s.stream.Connected := by
  obtain ⟨acts, H'⟩ := H.account
  rw [H.hooked, ← H'.connected_iff_getLast?]

theorem sound_init (symbols : List String) (nodup : symbols.Nodup) (minGapS clock : ℚ) :
    (init symbols nodup minGapS clock).Sound x where
  account := ⟨[], Stream.account_init clock⟩
  hooked := iff_of_false Bool.false_ne_true fun h => by cases h
  live := ⟨fun _ => LocalBook.Synced.init, fun _ hs => by cases hs⟩
  samples _ hr := nomatch hr

/-- No hook fires. -/
theorem Sound.quiet (H : s.Sound x) {a : StreamAct} {stream : Stream} {sys : ResyncSys}
    {loadedIn : String → Option ℕ} (hstream : s.stream.step a = some stream)
    (hhooks : stream.hooks = s.stream.hooks)
    (hconn : sys.handler.connected = s.sys.handler.connected)
    (hlive : sys.handler.Live x s.stream.sessions loadedIn) :
    Sound x { s with stream, sys, loadedIn } where
  account :=
    have ⟨_, H'⟩ := H.account
    ⟨_, H'.step hstream⟩
  hooked := by rw [hconn, hhooks]; exact H.hooked
  live := by
    change sys.handler.Live x (stream.hooks.count .onConnect) loadedIn
    rw [hhooks]
    exact hlive
  samples := H.samples

/-- The handler's hook fires with the stream's. -/
theorem Sound.socket (H : s.Sound x) {a : StreamAct} (h : s.socket a = some s') : s'.Sound x := by
  rw [LiveDepth.socket] at h
  obtain ⟨stream, hstream, h⟩ := Option.bind_eq_some_iff.mp h
  obtain ⟨sys, hsys, h⟩ := Option.bind_eq_some_iff.mp h
  cases h
  have haccount : ∃ acts, stream.Account acts :=
    have ⟨_, H'⟩ := H.account
    ⟨_, H'.step hstream⟩
  rcases Stream.hooks_of_step hstream with hhooks | ⟨hook, hhooks⟩
  · rw [hhooks, List.drop_length] at hsys
    cases hsys
    exact H.quiet hstream hhooks rfl H.live
  · rw [hhooks, List.drop_left] at hsys
    obtain ⟨sys', hsys, hnil⟩ := Option.bind_eq_some_iff.mp hsys
    cases hnil
    refine ⟨haccount, ?_, ?_, H.samples⟩
    · change sys.handler.connected = true ↔ stream.hooks.getLast? = some .onConnect
      rw [hhooks, List.getLast?_concat]
      cases hook with
      | onConnect =>
        obtain ⟨-, hsys⟩ := Option.ite_none_right_eq_some.mp hsys
        cases hsys
        exact iff_of_true rfl rfl
      | onDisconnect =>
        obtain ⟨-, hsys⟩ := Option.ite_none_right_eq_some.mp hsys
        cases hsys
        rw [DepthHandler.onDisconnect_connected]
        exact iff_of_false Bool.false_ne_true fun h => by cases h
    · change sys.handler.Live x (stream.hooks.count .onConnect) s.loadedIn
      cases hook with
      | onConnect =>
        obtain ⟨-, hsys⟩ := Option.ite_none_right_eq_some.mp hsys
        cases hsys
        exact H.live.onConnect
      | onDisconnect =>
        obtain ⟨-, hsys⟩ := Option.ite_none_right_eq_some.mp hsys
        cases hsys
        rw [hhooks, List.count_append]
        exact H.live.onDisconnect

/-- A sample of a book in sync is true. -/
theorem Sound.takeSample (H : s.Sound x) : (s.takeSample symbol nowMs).Sound x := by
  unfold LiveDepth.takeSample
  dsimp only
  split
  · exact H
  · next row hrow =>
    refine ⟨H.account, H.hooked, H.live, fun r hr hsync => ?_⟩
    rcases List.mem_append.mp hr with hr | hr
    · exact H.samples r hr hsync
    · cases List.mem_singleton.mp hr
      obtain ⟨hsync', hid, hnow⟩ := LocalBook.sample_tags hrow
      rw [hsync', Bool.and_eq_true, Bool.not_eq_true'] at hsync
      obtain ⟨hconn, hloaded⟩ := H.live.loaded symbol hsync.1
      obtain ⟨id, hlast, hnear⟩ := (H.live.synced symbol).known hsync.1
      refine ⟨?_, hloaded, fun last hl => ?_, id, hid.trans hlast,
        boundsBelow_of_nearClaim hnear hrow⟩
      · exact Stream.isOpen_iff.mpr (H.connected_iff.mp hconn)
      · rw [hnow]
        exact LocalBook.le_staleMs_of_not_isStale hsync.2 hl

theorem Sound.step (H : s.Sound x) {a : LiveAct} (ha : a.Delivered x) (h : s.step a = some s') :
    s'.Sound x := by
  cases a with
  | elapse dt =>
    obtain ⟨stream, hstream, h⟩ := Option.bind_eq_some_iff.mp h
    obtain ⟨sys, hsys, h⟩ := Option.bind_eq_some_iff.mp h
    cases h
    have hstream' := hstream
    obtain ⟨-, hs⟩ := Option.ite_none_right_eq_some.mp hstream
    obtain ⟨-, hs'⟩ := Option.ite_none_right_eq_some.mp hsys
    cases hs
    cases hs'
    exact H.quiet hstream' rfl rfl H.live
  | setStop =>
    obtain ⟨sys, hsys, h⟩ := Option.bind_eq_some_iff.mp h
    cases h
    obtain ⟨-, hs'⟩ := Option.ite_none_right_eq_some.mp hsys
    cases hs'
    exact H.quiet (a := .setStop) rfl rfl rfl H.live
  | socket a =>
    have hsocket : s.socket a = some s' := by
      cases a with
      | elapse dt => cases h
      | setStop => cases h
      | _ => exact (Option.ite_none_right_eq_some.mp h).2
    exact H.socket hsocket
  | event symbol ev nowMs =>
    obtain ⟨stream, hstream, h⟩ := Option.bind_eq_some_iff.mp h
    obtain ⟨sys, hsys, h⟩ := Option.bind_eq_some_iff.mp h
    cases h
    have hhooks : stream.hooks = s.stream.hooks := by
      rw [Stream.step] at hstream
      split at hstream <;> cases hstream
      rfl
    obtain ⟨-, hs'⟩ := Option.ite_none_right_eq_some.mp hsys
    cases hs'
    exact H.quiet hstream hhooks (DepthHandler.onMessage_connected ..) (H.live.onMessage ha nowMs)
  | resync =>
    obtain ⟨sys, hsys, h⟩ := Option.bind_eq_some_iff.mp h
    cases h
    obtain ⟨hbooks, hconn⟩ := ResyncSys.handler_of_proceed hsys
    exact ⟨H.account, by rw [hconn]; exact H.hooked, H.live.of_eq hbooks hconn, H.samples⟩
  | answer symbol a nowMs =>
    rw [LiveDepth.step] at h
    split at h
    · next now symbol' rest hpc =>
      obtain ⟨hsym, h⟩ := Option.ite_none_right_eq_some.mp h
      obtain ⟨sys, hsys, h⟩ := Option.bind_eq_some_iff.mp h
      cases h
      subst hsym
      rw [ResyncSys.step, hpc] at hsys
      cases hsys
      refine ⟨H.account, ?_, H.live.resyncOnce ha s.sys.clock, H.samples⟩
      rw [DepthHandler.resyncOnce_connected]
      exact H.hooked
    · cases h
  | sample symbol nowMs =>
    obtain ⟨-, h⟩ := Option.ite_none_right_eq_some.mp h
    cases h
    exact H.takeSample

/-- In every run of the stream with its handler, the resync task and the samplers, in whatever order
their steps come: a book is in sync only while a session is open and from a snapshot applied in it,
and each row that says so was sampled from such a book, whose exact sums are at most those of the
exchange. -/
theorem mirrored {symbols : List String} {nodup : symbols.Nodup} {minGapS clock : ℚ}
    {acts : List LiveAct} (h : (init symbols nodup minGapS clock).run acts = some s)
    (hacts : ∀ a ∈ acts, a.Delivered x) :
    (∀ symbol, (s.sys.handler.books symbol).inSync = true →
      s.stream.Connected ∧ s.loadedIn symbol = some s.stream.sessions) ∧
    ∀ r ∈ s.samples, r.row.inSync = true → r.Mirrors x := by
  have H : s.Sound x := by
    refine Trace.invariant_acts (P := fun acts s => (∀ a ∈ acts, a.Delivered x) → s.Sound x)
      (fun acts s₁ a s₂ ih ha hall => ?_) (fun _ => sound_init ..) h hacts
    exact (ih fun b hb => hall b (List.mem_append_left _ hb)).step
      (hall a (List.mem_append_right _ (List.mem_singleton_self a))) ha
  refine ⟨fun symbol hs => ?_, H.samples⟩
  obtain ⟨hconn, hloaded⟩ := H.live.loaded symbol hs
  exact ⟨H.connected_iff.mp hconn, hloaded⟩

/-- A session with one snapshot, one event and two samples, the second of which is late. -/
def thinActs : List LiveAct := [
  .socket .proceed, .socket (.connect 0), .resync, .resync,
  .answer "BTCUSDT" (.body ⟨some 1, [(some 100, some 1), (some 99, some 1)], [(some 101, some 1)]⟩)
    10,
  .resync, .resync, .event "BTCUSDT" thinEvent 20, .sample "BTCUSDT" 1000,
  .socket (.finish none), .sample "BTCUSDT" 2000]

theorem mirrored_thinActs : ∃ s, (init ["BTCUSDT"] (by decide) 2 0).run thinActs = some s ∧
    s.samples.map (fun r => (r.row.inSync, r.row.lastUpdateId, r.session)) =
      [(true, some 2, 1), (false, some 2, 1)] ∧
    ∀ r ∈ s.samples, r.row.inSync = true → r.Mirrors fun _ => thinExchange := by
  have hrun : ((init ["BTCUSDT"] (by decide) 2 0).run thinActs).map (fun s =>
      s.samples.map fun r => (r.row.inSync, r.row.lastUpdateId, r.session)) =
      some [(true, some 2, 1), (false, some 2, 1)] := by
    decide +kernel
  obtain ⟨s, hs, hsamples⟩ := Option.map_eq_some_iff.mp hrun
  refine ⟨s, hs, hsamples, (mirrored hs ?_).2⟩
  simp only [thinActs, List.forall_mem_cons]
  exact ⟨trivial, trivial, trivial, trivial, thinInputs_delivers _ List.mem_cons_self, trivial,
    trivial, List.mem_singleton_self _, trivial, trivial, trivial, fun _ ha => nomatch ha⟩

end LiveDepth

end P300
