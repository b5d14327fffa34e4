import P300.Lib.Dict
import P300.Micro.PollGrid
import P300.Micro.Positions

/-!
# The tracked addresses

`hyperliquid.poll_leaderboard` and `hyperliquid.poll_positions` run in one event loop and share a
`Tracker`: the first requests the leaderboard once a day, the second polls the positions of the
addresses at its top.
-/

namespace P300

/-! ## The leaderboard -/

/-- `LEADERBOARD_TOP` -/
def leaderboardTop : ℕ := 300

/-- `LEADERBOARD_RETRY_S` -/
def leaderboardRetryS : ℚ := 3600

/-- `int(time.time() * 1000)` -/
def clockMs (clock : ℚ) : Int := ⌊clock * 1000⌋

/-- `utc_day`, as the number of the day -/
def utcDay (ms : Int) : Int := ms / 86_400_000

/-- An item of `leaderboardRows`; what does not parse as a number is `none`. -/
structure LeaderItem where
  ethAddress : Option String
  accountValue : Option ℚ
  /-- The window and the `pnl` of each entry; `none` is an entry of another shape. -/
  windowPerformances : List (Option (String × Option ℚ)) := []

/-- A reply to the request for the leaderboard. -/
structure LeaderPayload where
  /-- The keys of the payload or its type, for the text of the error. -/
  shape : String := ""
  /-- `none` if there is no list; an item that is not a dict is `none`. -/
  leaderboardRows : Option (List (Option LeaderItem))

/-- An item that has an address and a value. -/
structure ScoredItem where
  av : ℚ
  addr : String
  pnl : Dict String (Option ℚ)

/-- A row of `hl_leaderboard`. -/
structure LeaderRow where
  snapshotDay : Int
  address : String
  rank : ℕ
  accountValue : ℚ
  pnlDay : Option ℚ
  pnlWeek : Option ℚ
  pnlMonth : Option ℚ
  pnlAllTime : Option ℚ
  receivedMs : Int

def LeaderItem.scored? (it : LeaderItem) : Option ScoredItem :=
  match it.ethAddress, it.accountValue with
  | some addr, some av =>
    if addr = "" then none
    else some ⟨av, addr, Dict.empty.upsert (it.windowPerformances.filterMap id)⟩
  | _, _ => none

def scoredItems (items : List (Option LeaderItem)) : List ScoredItem :=
  items.filterMap fun it => it.bind LeaderItem.scored?

def ScoredItem.row (snapshotDay receivedMs : Int) (item : ScoredItem) (rank : ℕ) : LeaderRow where
  snapshotDay
  address := item.addr
  rank
  accountValue := item.av
  pnlDay := (item.pnl.get? "day").join
  pnlWeek := (item.pnl.get? "week").join
  pnlMonth := (item.pnl.get? "month").join
  pnlAllTime := (item.pnl.get? "allTime").join
  receivedMs

/-- The order of `scored.sort(key=lambda t: t[0], reverse=True)` -/
def valueLe (a b : ScoredItem) : Prop := b.av ≤ a.av

instance : DecidableRel valueLe := fun _ _ => inferInstanceAs (Decidable (_ ≤ _))

/-- `parse_leaderboard` -/
def parseLeaderboard (payload : LeaderPayload) (snapshotDay receivedMs : Int) (top : ℕ) :
    Except String (List LeaderRow) :=
  match payload.leaderboardRows with
  | none | some [] => .error s!"leaderboard payload has no leaderboardRows (got {payload.shape})"
  | some items =>
    match scoredItems items with
    | [] => .error s!"leaderboard: {items.length} items, none with ethAddress+accountValue"
    | scored => .ok (((scored.insertionSort valueLe).take top).zipIdx 1 |>.map fun x =>
        x.1.row snapshotDay receivedMs x.2)

/-- `Tracker` -/
structure Tracker where
  addresses : List String := []
  snapshotDay : Option Int := none

def rankLe (r r' : LeaderRow) : Prop := r.rank ≤ r'.rank

instance : DecidableRel rankLe := fun _ _ => inferInstanceAs (Decidable (_ ≤ _))

/-- `Tracker.update` -/
def Tracker.update (trackTop : ℕ) (tracker : Tracker) (rows : List LeaderRow) : Tracker :=
  match rows with
  | [] => tracker
  | row :: _ =>
    let ordered := rows.insertionSort rankLe
    { addresses := (ordered.take trackTop).map (·.address), snapshotDay := some row.snapshotDay }

/-! ## The two pollers -/

structure TrackingConfig where
  trackTop : ℕ
  intervalS : ℕ
  concurrency : ℕ
  gapS : ℚ
  checkS : ℚ

/-- Where `poll_leaderboard` is. -/
inductive LeaderPc
  | ready
  /-- The request waits for a thread of the executor, since the time of `time.monotonic`. -/
  | submitted (start : ℚ)
  | fetching (start : ℚ) (nowMs : Int)
  | sleeping (wake : ℚ)
  | stopped

/-- Where `poll_positions` is. -/
inductive PassPc
  | ready (bucket : Option Int)
  | waiting (bucket : Option Int) (wake : ℚ)
  | fetching (bucket : Int) (fetch : PositionsFetch)
  | sleeping (bucket : Int) (wake : ℚ)
  | stopped

/-- The key that the next pass has; the first pass takes its key from the clock. -/
def PassPc.due? : PassPc → Option (Option Int)
  | .ready bucket | .waiting bucket _ => some bucket
  | .sleeping bucket _ => some (some bucket)
  | _ => none

/-- A request for the leaderboard that is over. -/
structure LeaderFetch where
  start : ℚ
  finish : ℚ
  ok : Bool

/-- What the pollers do, in order. -/
inductive HlEvent
  /-- The rows are put to `hl_leaderboard`. -/
  | leaderboard (rows : List LeaderRow)
  /-- A pass over the addresses begins. -/
  | pass (bucket : Int) (addresses : List String)
  /-- The rows of the pass are put to `hl_accounts` and `hl_positions`. -/
  | positions (accounts : List HlAccountRow) (positions : List HlPositionRow)

namespace HlEvent

def leaderboard? : HlEvent → Option (List LeaderRow)
  | .leaderboard rows => some rows
  | _ => none

def pass? : HlEvent → Option (Int × List String)
  | .pass bucket addresses => some (bucket, addresses)
  | _ => none

def accounts : HlEvent → List HlAccountRow
  | .positions accounts _ => accounts
  | _ => []

/-- The leaderboards that were put, each by its rows. -/
def snapshots (log : List HlEvent) : List (List LeaderRow) := log.filterMap leaderboard?

/-- The passes that were begun, each by its key and its addresses. -/
def passes (log : List HlEvent) : List (Int × List String) := log.filterMap pass?

/-- The rows that were put to `hl_accounts`. -/
def accountRows (log : List HlEvent) : List HlAccountRow := log.flatMap accounts

end HlEvent

/-- `clock` is `time.time`, `mono` is `time.monotonic`. -/
structure HlTracking where
  clock : ℚ
  mono : ℚ
  stop : Bool := false
  tracker : Tracker := {}
  nextTry : ℚ := 0
  leader : LeaderPc := .ready
  pass : PassPc := .ready none
  fetches : List LeaderFetch := []
  log : List HlEvent := []

inductive TrackAct
  | elapse (dt : ℚ)
  | setStop
  /-- `poll_leaderboard` goes on. -/
  | leader
  /-- A thread takes up the request for the leaderboard. -/
  | begin
  | reply (reply : Except String LeaderPayload)
  /-- `poll_positions` goes on. -/
  | pass
  /-- A worker of the pass goes on. -/
  | proceed (i : ℕ)
  | answer (i : ℕ) (reply : Except String Clearinghouse) (receivedMs : Int)

/-- The fetch that is under way takes a step. -/
def PassPc.act (a : FetchAct) : PassPc → Option PassPc
  | .fetching bucket fetch => (fetch.step a).map (.fetching bucket)
  | _ => none

namespace HlTracking

variable (c : TrackingConfig) (s : HlTracking)

def leaderStep : Option HlTracking :=
  match s.leader with
  | .ready =>
    if s.stop then some { s with leader := .stopped }
    else if s.tracker.snapshotDay ≠ some (utcDay (clockMs s.clock)) ∧ s.nextTry ≤ s.mono then
      some { s with leader := .submitted s.mono }
    else some { s with leader := .sleeping (s.mono + c.checkS) }
  | .sleeping wake =>
    if s.stop then some { s with leader := .stopped }
    else if wake ≤ s.mono then some { s with leader := .ready }
    else none
  | _ => none

/-- The end of the request for the leaderboard. -/
def replied (start : ℚ) (nowMs : Int) (reply : Except String LeaderPayload) : HlTracking :=
  let s' := { s with leader := .sleeping (s.mono + c.checkS) }
  match reply.bind fun payload =>
    parseLeaderboard payload (utcDay nowMs) nowMs leaderboardTop with
  | .ok rows => { s' with
      log := s.log ++ [.leaderboard rows]
      tracker := s.tracker.update c.trackTop rows
      fetches := s.fetches ++ [⟨start, s.mono, true⟩] }
  | .error _ => { s' with
      nextTry := s.mono + leaderboardRetryS
      fetches := s.fetches ++ [⟨start, s.mono, false⟩] }

/-- `poll_positions` with addresses to follow. -/
def passBegin (bucket : Option Int) : HlTracking :=
  let key := bucket.getD (bucketMs (clockMs s.clock) c.intervalS)
  { s with
    log := s.log ++ [.pass key s.tracker.addresses]
    pass := .fetching key (.start s.tracker.addresses key c.concurrency c.gapS s.mono s.stop) }

/-- `fetch_positions` returns. -/
def passEnd (fetch : PositionsFetch) : HlTracking :=
  let boundary := nextBoundaryS s.clock c.intervalS
  { s with
    log := s.log ++ [.positions fetch.accounts fetch.positions]
    pass := .sleeping (boundaryMs s.clock c.intervalS)
      (s.mono + (boundary - s.clock + boundaryMarginS)) }

def passStep : Option HlTracking :=
  match s.pass with
  | .ready bucket =>
    if s.stop then some { s with pass := .stopped }
    else if s.tracker.addresses = [] then
      some { s with pass := .waiting bucket (s.mono + min 5 c.intervalS) }
    else some (s.passBegin c bucket)
  | .waiting bucket wake =>
    if s.stop then some { s with pass := .stopped }
    else if wake ≤ s.mono then some { s with pass := .ready bucket }
    else none
  | .fetching _ fetch =>
    if fetch.workers.all (· = .ended) then some (s.passEnd c fetch) else none
  | .sleeping bucket wake =>
    if s.stop then some { s with pass := .stopped }
    else if wake ≤ s.mono then some { s with pass := .ready (some bucket) }
    else none
  | .stopped => none

def step : TrackAct → Option HlTracking
  | .elapse dt =>
    if 0 ≤ dt then some { s with
      clock := s.clock + dt
      mono := s.mono + dt
      pass := (s.pass.act (.elapse dt)).getD s.pass }
    else none
  | .setStop => some { s with stop := true, pass := (s.pass.act .setStop).getD s.pass }
  | .leader => s.leaderStep c
  | .begin =>
    match s.leader with
    | .submitted start => some { s with leader := .fetching start (clockMs s.clock) }
    | _ => none
  | .reply reply =>
    match s.leader with
    | .fetching start nowMs => some (s.replied c start nowMs reply)
    | _ => none
  | .pass => s.passStep c
  | .proceed i => (s.pass.act (.proceed i)).map fun pass => { s with pass }
  | .answer i reply receivedMs =>
    (s.pass.act (.answer i reply receivedMs)).map fun pass => { s with pass }

def run (acts : List TrackAct) : Option HlTracking := Trace.run (step c) s acts

end HlTracking

/-! ## The top of the leaderboard -/

instance : IsTrans ScoredItem valueLe := ⟨fun _ _ _ hab hbc => le_trans hbc hab⟩

instance : Std.Total valueLe := ⟨fun a b => le_total b.av a.av⟩

/-- The rows are the top of the items, in order. -/
structure IsTop (items : List (Option LeaderItem)) (snapshotDay : Int) (rows : List LeaderRow) :
    Prop where
  ne_nil : rows ≠ []
  length : rows.length = min leaderboardTop (scoredItems items).length
  day : ∀ r ∈ rows, r.snapshotDay = snapshotDay
  ranks : rows.map (·.rank) = List.range' 1 rows.length
  values : rows.Pairwise fun r r' => r'.accountValue ≤ r.accountValue
  rest : ∃ rest, (rows.map (fun r => (r.accountValue, r.address)) ++ rest).Perm
    ((scoredItems items).map fun x => (x.av, x.addr)) ∧
    ∀ r ∈ rows, ∀ x ∈ rest, x.1 ≤ r.accountValue

theorem parseLeaderboard_ok {payload : LeaderPayload} {snapshotDay receivedMs : Int}
    {rows : List LeaderRow}
    (h : parseLeaderboard payload snapshotDay receivedMs leaderboardTop = .ok rows) :
    ∃ items, payload.leaderboardRows = some items ∧ IsTop items snapshotDay rows := by
  rw [parseLeaderboard] at h
  split at h
  · cases h
  · cases h
  · next items _ hitems =>
    split at h
    · cases h
    · next hscored =>
      cases h
      refine ⟨items, hitems, ?_⟩
      set scored := scoredItems items
      have hperm := List.perm_insertionSort valueLe scored
      have hsorted := List.pairwise_insertionSort valueLe scored
      set sorted := scored.insertionSort valueLe
      have hmap : ∀ {β : Type} (f : ScoredItem → β) (g : LeaderRow → β),
          (∀ x n, g (x.row snapshotDay receivedMs n) = f x) →
          ((((sorted.take leaderboardTop).zipIdx 1).map fun x =>
            x.1.row snapshotDay receivedMs x.2).map g) = (sorted.take leaderboardTop).map f := by
        intro β f g hg
        rw [List.map_map, ← List.zipIdx_map_fst 1 (sorted.take leaderboardTop), List.map_map,
          List.zipIdx_map_fst]
        exact List.map_congr_left fun x _ => hg x.1 x.2
      have hlength : (((sorted.take leaderboardTop).zipIdx 1).map fun x =>
          x.1.row snapshotDay receivedMs x.2).length = min leaderboardTop scored.length := by
        rw [List.length_map, List.length_zipIdx, List.length_take, hperm.length_eq]
      have hvalues := hmap (fun x => x.av) (·.accountValue) fun _ _ => rfl
      refine ⟨?_, hlength, ?_, ?_, ?_, ?_⟩
      · intro hnil
        rw [hnil] at hlength
        have hpos := List.length_pos_iff.mpr hscored
        have : 0 < min leaderboardTop scored.length := lt_min (by decide) hpos
        exact absurd hlength this.ne
      · intro r hr
        obtain ⟨x, -, rfl⟩ := List.mem_map.mp hr
        rfl
      · rw [List.map_map, List.length_map, List.length_zipIdx]
        exact List.zipIdx_map_snd ..
      · rw [← List.pairwise_map (f := fun r : LeaderRow => r.accountValue) (R := fun a b => b ≤ a),
          hvalues, List.pairwise_map]
        exact hsorted.sublist (List.take_sublist ..)
      · refine ⟨(sorted.drop leaderboardTop).map fun x => (x.av, x.addr), ?_, ?_⟩
        · rw [hmap (fun x => (x.av, x.addr)) _ fun _ _ => rfl, ← List.map_append,
            List.take_append_drop]
          exact hperm.map _
        · intro r hr x hx
          have hr' : r.accountValue ∈ (sorted.take leaderboardTop).map (·.av) := by
            rw [← hvalues]
            exact List.mem_map_of_mem hr
          obtain ⟨a, ha, hav⟩ := List.mem_map.mp hr'
          obtain ⟨b, hb, rfl⟩ := List.mem_map.mp hx
          rw [← List.take_append_drop leaderboardTop sorted] at hsorted
          rw [← hav]
          exact (List.pairwise_append.mp hsorted).2.2 a ha b hb

/-- The tracker follows the rows in their order. -/
theorem IsTop.update {items : List (Option LeaderItem)} {snapshotDay : Int}
    {rows : List LeaderRow} (H : IsTop items snapshotDay rows) (trackTop : ℕ) (tracker : Tracker) :
    tracker.update trackTop rows =
      ⟨(rows.take trackTop).map (·.address), some snapshotDay⟩ := by
  have hranks : rows.Pairwise rankLe := by
    have hlt : (rows.map (·.rank)).Pairwise (· < ·) := by
      rw [H.ranks]
      exact List.pairwise_lt_range'
    exact (List.pairwise_map.mp hlt).imp fun h => h.le
  cases rows with
  | nil => exact (H.ne_nil rfl).elim
  | cons row rows =>
    rw [Tracker.update]
    congr 1
    · simp only [hranks.insertionSort_eq]
    · rw [H.day row List.mem_cons_self]

/-! ## The steps -/

theorem clockMs_mono {t t' : ℚ} (h : t ≤ t') : clockMs t ≤ clockMs t' :=
  Int.floor_le_floor (mul_le_mul_of_nonneg_right h (by norm_num))

theorem utcDay_mono {ms ms' : Int} (h : ms ≤ ms') : utcDay ms ≤ utcDay ms' :=
  Int.ediv_le_ediv (by norm_num) h

namespace HlTracking

variable {c : TrackingConfig} {s s' : HlTracking}

/-- `poll_leaderboard` goes on: only a day without a leaderboard has it ask for one. -/
theorem leaderStep_cases (h : s.leaderStep c = some s') : ∃ leader, s' = { s with leader } ∧
    (∀ t, leader = .submitted t → t = s.mono ∧ s.nextTry ≤ s.mono ∧
      s.tracker.snapshotDay ≠ some (utcDay (clockMs s.clock))) ∧
    ∀ t n, leader ≠ .fetching t n := by
  rw [leaderStep] at h
  split at h
  · split at h
    · cases h
      exact ⟨_, rfl, fun _ h => (nomatch h), fun _ _ h => (nomatch h)⟩
    · split at h
      · next hdue =>
        cases h
        refine ⟨_, rfl, fun t ht => ?_, fun _ _ h => (nomatch h)⟩
        cases ht
        exact ⟨rfl, hdue.2, hdue.1⟩
      · cases h
        exact ⟨_, rfl, fun _ h => (nomatch h), fun _ _ h => (nomatch h)⟩
  · split at h
    · cases h
      exact ⟨_, rfl, fun _ h => (nomatch h), fun _ _ h => (nomatch h)⟩
    · obtain ⟨-, h⟩ := Option.ite_none_right_eq_some.mp h
      cases h
      exact ⟨_, rfl, fun _ h => (nomatch h), fun _ _ h => (nomatch h)⟩
  · cases h

/-- A reply is a leaderboard, or puts the next request off. -/
theorem replied_cases (start : ℚ) (nowMs : Int) (reply : Except String LeaderPayload) :
    (∃ payload rows items, reply = .ok payload ∧ payload.leaderboardRows = some items ∧
      IsTop items (utcDay nowMs) rows ∧ s.replied c start nowMs reply = { s with
        leader := .sleeping (s.mono + c.checkS)
        log := s.log ++ [.leaderboard rows]
        tracker := ⟨(rows.take c.trackTop).map (·.address), some (utcDay nowMs)⟩
        fetches := s.fetches ++ [⟨start, s.mono, true⟩] }) ∨
    s.replied c start nowMs reply = { s with
      leader := .sleeping (s.mono + c.checkS)
      nextTry := s.mono + leaderboardRetryS
      fetches := s.fetches ++ [⟨start, s.mono, false⟩] } := by
  cases reply with
  | error e => exact .inr rfl
  | ok payload =>
    cases hparse : parseLeaderboard payload (utcDay nowMs) nowMs leaderboardTop with
    | error e =>
      right
      rw [replied]
      change (match parseLeaderboard payload (utcDay nowMs) nowMs leaderboardTop with
        | .ok _ => _ | .error _ => _) = _
      rw [hparse]
    | ok rows =>
      obtain ⟨items, hitems, htop⟩ := parseLeaderboard_ok hparse
      refine .inl ⟨payload, rows, items, rfl, hitems, htop, ?_⟩
      rw [replied, ← htop.update c.trackTop s.tracker]
      change (match parseLeaderboard payload (utcDay nowMs) nowMs leaderboardTop with
        | .ok _ => _ | .error _ => _) = _
      rw [hparse]

/-- `poll_positions` goes on: it idles, or begins or ends a pass. -/
theorem passStep_cases (h : s.passStep c = some s') :
    (∃ pass, s' = { s with pass } ∧ (pass = .stopped ∨ ∃ bucket, s.pass.due? = some bucket ∧
      (pass = .ready bucket ∨ ∃ w, pass = .waiting bucket w) ∧
      ∀ key w, s.pass = .sleeping key w → w ≤ s.mono)) ∨
    (∃ bucket, s.pass = .ready bucket ∧ s.tracker.addresses ≠ [] ∧
      s' = s.passBegin c bucket) ∨
    ∃ key fetch, s.pass = .fetching key fetch ∧ s' = s.passEnd c fetch := by
  rw [passStep] at h
  split at h
  · next bucket hpc =>
    split at h
    · cases h
      exact .inl ⟨_, rfl, .inl rfl⟩
    · split at h
      · cases h
        refine .inl ⟨_, rfl, .inr ⟨bucket, by rw [hpc]; rfl, .inr ⟨_, rfl⟩, fun key w h => ?_⟩⟩
        rw [hpc] at h
        cases h
      · next haddr =>
        cases h
        exact .inr (.inl ⟨bucket, hpc, haddr, rfl⟩)
  · next bucket wake hpc =>
    split at h
    · cases h
      exact .inl ⟨_, rfl, .inl rfl⟩
    · obtain ⟨-, h⟩ := Option.ite_none_right_eq_some.mp h
      cases h
      refine .inl ⟨_, rfl, .inr ⟨bucket, by rw [hpc]; rfl, .inl rfl, fun key w h => ?_⟩⟩
      rw [hpc] at h
      cases h
  · next key fetch hpc =>
    obtain ⟨-, h⟩ := Option.ite_none_right_eq_some.mp h
    cases h
    exact .inr (.inr ⟨key, fetch, hpc, rfl⟩)
  · next key wake hpc =>
    split at h
    · cases h
      exact .inl ⟨_, rfl, .inl rfl⟩
    · obtain ⟨hwake, h⟩ := Option.ite_none_right_eq_some.mp h
      cases h
      refine .inl ⟨_, rfl, .inr ⟨some key, by rw [hpc]; rfl, .inl rfl, fun key w h => ?_⟩⟩
      rw [hpc] at h
      cases h
      exact hwake
  · cases h

/-! ## The days -/

/-- What the requests for the leaderboard keep. -/
structure Daily (s : HlTracking) : Prop where
  today : ∀ d ∈ s.tracker.snapshotDay, d ≤ utcDay (clockMs s.clock)
  latest : ∀ rows ∈ HlEvent.snapshots s.log, ∀ r ∈ rows,
    ∃ d ∈ s.tracker.snapshotDay, r.snapshotDay ≤ d
  days : (HlEvent.snapshots s.log).Pairwise fun rows rows' =>
    ∀ r ∈ rows, ∀ r' ∈ rows', r.snapshotDay < r'.snapshotDay
  past : ∀ f ∈ s.fetches, f.finish ≤ s.mono
  retry : ∀ f ∈ s.fetches, f.ok = false → f.finish + leaderboardRetryS ≤ s.nextTry
  spaced : s.fetches.Pairwise fun f f' => f.ok = false → f.finish + leaderboardRetryS ≤ f'.start
  submitted : ∀ t, s.leader = .submitted t → s.nextTry ≤ t ∧
    ∀ d ∈ s.tracker.snapshotDay, d < utcDay (clockMs s.clock)
  fetching : ∀ t n, s.leader = .fetching t n → s.nextTry ≤ t ∧ n ≤ clockMs s.clock ∧
    ∀ d ∈ s.tracker.snapshotDay, d < utcDay n

theorem daily_init (clock mono : ℚ) : Daily { clock, mono } where
  today _ h := nomatch h
  latest _ h := nomatch h
  days := .nil
  past _ h := nomatch h
  retry _ h := nomatch h
  spaced := .nil
  submitted _ h := nomatch h
  fetching _ _ h := nomatch h

/-- What `poll_positions` does. -/
theorem Daily.pass (H : s.Daily) {log : List HlEvent} (pass : PassPc)
    (hlog : HlEvent.snapshots log = HlEvent.snapshots s.log) : Daily { s with log, pass } where
  today := H.today
  latest := by
    rw [hlog]
    exact H.latest
  days := by
    rw [hlog]
    exact H.days
  past := H.past
  retry := H.retry
  spaced := H.spaced
  submitted := H.submitted
  fetching := H.fetching

theorem Daily.elapse (H : s.Daily) {dt : ℚ} (hdt : 0 ≤ dt) (pass : PassPc) :
    Daily { s with clock := s.clock + dt, mono := s.mono + dt, pass } := by
  have hclock := clockMs_mono (le_add_of_nonneg_right hdt : s.clock ≤ s.clock + dt)
  have hday := utcDay_mono hclock
  refine ⟨fun d hd => (H.today d hd).trans hday, H.latest, H.days, fun f hf => ?_, H.retry,
    H.spaced, fun t ht => ?_, fun t n ht => ?_⟩
  · exact (H.past f hf).trans (le_add_of_nonneg_right hdt)
  · exact (H.submitted t ht).imp_right fun h d hd => (h d hd).trans_le hday
  · exact (H.fetching t n ht).imp_right fun h => ⟨h.1.trans hclock, h.2⟩

theorem Daily.leaderStep (H : s.Daily) (h : s.leaderStep c = some s') : s'.Daily := by
  obtain ⟨leader, rfl, hsubmitted, hfetching⟩ := leaderStep_cases h
  refine ⟨H.today, H.latest, H.days, H.past, H.retry, H.spaced, fun t ht => ?_,
    fun t n ht => (hfetching t n ht).elim⟩
  obtain ⟨rfl, hnext, hday⟩ := hsubmitted t ht
  refine ⟨hnext, fun d hd => lt_of_le_of_ne (H.today d hd) fun heq => hday ?_⟩
  rw [← heq]
  exact hd

/-- A reply comes. -/
theorem Daily.replied (H : s.Daily) {start : ℚ} {nowMs : Int}
    (hpc : s.leader = .fetching start nowMs) (reply : Except String LeaderPayload) :
    (s.replied c start nowMs reply).Daily := by
  obtain ⟨hnext, hnow, hnew⟩ := H.fetching start nowMs hpc
  have hpast : ∀ ok, ∀ f ∈ s.fetches ++ [⟨start, s.mono, ok⟩], f.finish ≤ s.mono := by
    intro ok f hf
    rcases List.mem_append.mp hf with hf | hf
    · exact H.past f hf
    · rw [List.mem_singleton.mp hf]
  have hspaced : ∀ ok, (s.fetches ++ [LeaderFetch.mk start s.mono ok]).Pairwise fun f f' =>
      f.ok = false → f.finish + leaderboardRetryS ≤ f'.start := by
    intro ok
    refine List.pairwise_append.mpr ⟨H.spaced, List.pairwise_singleton .., fun f hf f' hf' h => ?_⟩
    rw [List.mem_singleton.mp hf']
    exact (H.retry f hf h).trans hnext
  rcases @replied_cases c s start nowMs reply with
    ⟨payload, rows, items, -, -, htop, heq⟩ | heq <;> rw [heq]
  · have hsnapshots : HlEvent.snapshots (s.log ++ [.leaderboard rows]) =
        HlEvent.snapshots s.log ++ [rows] := List.filterMap_append
    refine ⟨fun d hd => ?_, fun rows' hrows' r hr => ⟨utcDay nowMs, rfl, ?_⟩, ?_, hpast true,
      fun f hf hok => ?_, hspaced true, fun _ h => (nomatch h), fun _ _ h => (nomatch h)⟩
    · cases hd
      exact utcDay_mono hnow
    · rw [hsnapshots] at hrows'
      rcases List.mem_append.mp hrows' with hrows' | hrows'
      · obtain ⟨d, hd, hle⟩ := H.latest rows' hrows' r hr
        exact hle.trans (hnew d hd).le
      · rw [List.mem_singleton.mp hrows'] at hr
        exact (htop.day r hr).le
    · rw [hsnapshots]
      refine List.pairwise_append.mpr ⟨H.days, List.pairwise_singleton .., ?_⟩
      intro rows' hrows' rows'' hrows'' r hr r' hr'
      rw [List.mem_singleton.mp hrows''] at hr'
      obtain ⟨d, hd, hle⟩ := H.latest rows' hrows' r hr
      rw [htop.day r' hr']
      exact hle.trans_lt (hnew d hd)
    · rcases List.mem_append.mp hf with hf | hf
      · exact H.retry f hf hok
      · rw [List.mem_singleton.mp hf] at hok
        cases hok
  · refine ⟨H.today, H.latest, H.days, hpast false, fun f hf _ => ?_, hspaced false,
      fun _ h => (nomatch h), fun _ _ h => (nomatch h)⟩
    exact add_le_add_left (hpast false f hf) _

theorem snapshots_concat_of_none {log : List HlEvent} {e : HlEvent} (h : e.leaderboard? = none) :
    HlEvent.snapshots (log ++ [e]) = HlEvent.snapshots log := by
  rw [HlEvent.snapshots, List.filterMap_append, List.filterMap_cons_none h, List.filterMap_nil,
    List.append_nil]
  rfl

theorem Daily.step (H : s.Daily) {a : TrackAct} (h : s.step c a = some s') : s'.Daily := by
  cases a with
  | elapse dt =>
    obtain ⟨hdt, h⟩ := Option.ite_none_right_eq_some.mp h
    cases h
    exact H.elapse hdt _
  | setStop =>
    cases h
    exact ⟨H.today, H.latest, H.days, H.past, H.retry, H.spaced, H.submitted, H.fetching⟩
  | leader => exact H.leaderStep h
  | begin =>
    rw [HlTracking.step] at h
    split at h
    · next start hpc =>
      cases h
      refine ⟨H.today, H.latest, H.days, H.past, H.retry, H.spaced, fun _ h => (nomatch h), ?_⟩
      intro t n ht
      cases ht
      exact (H.submitted start hpc).imp_right fun h => ⟨le_rfl, h⟩
    · cases h
  | reply reply =>
    rw [HlTracking.step] at h
    split at h
    · next start nowMs hpc =>
      cases h
      exact H.replied hpc reply
    · cases h
  | pass =>
    rcases passStep_cases h with ⟨pass, rfl, -⟩ | ⟨bucket, -, -, rfl⟩ | ⟨key, fetch, -, rfl⟩
    · exact H.pass pass rfl
    · exact H.pass _ (snapshots_concat_of_none rfl)
    · exact H.pass _ (snapshots_concat_of_none rfl)
  | proceed i =>
    obtain ⟨pass, -, rfl⟩ := Option.map_eq_some_iff.mp h
    exact H.pass pass rfl
  | answer i reply receivedMs =>
    obtain ⟨pass, -, rfl⟩ := Option.map_eq_some_iff.mp h
    exact H.pass pass rfl

/-! ## The passes -/

/-- An event is as the events before it let it be: a pass follows the top of the leaderboard that
was put last, and the rows are of the addresses of the pass that was begun last. -/
def Follow (c : TrackingConfig) (log : List HlEvent) : HlEvent → Prop
  | .leaderboard _ => True
  | .pass _ addresses => addresses ≠ [] ∧ ∃ rows, (HlEvent.snapshots log).getLast? = some rows ∧
    addresses = (rows.take c.trackTop).map (·.address)
  | .positions accounts positions => ∃ bucket addresses,
    (HlEvent.passes log).getLast? = some (bucket, addresses) ∧
    (∀ a ∈ accounts, a.tsMs = bucket) ∧ (accounts.map (·.address)).Subperm addresses ∧
    ∀ p ∈ positions, p.tsMs = bucket ∧ p.address ∈ addresses

/-- What both pollers keep. -/
structure Follows (c : TrackingConfig) (s : HlTracking) : Prop where
  current : s.tracker.addresses = ((HlEvent.snapshots s.log).getLast?.map fun rows =>
    (rows.take c.trackTop).map (·.address)).getD []
  allowed : Trace.Allowed (Follow c) s.log
  keys : (HlEvent.passes s.log).Pairwise fun p p' => p.1 < p'.1
  past : ∀ p ∈ HlEvent.passes s.log, (p.1 : ℚ) ≤ s.clock * 1000
  due : ∀ bucket, s.pass.due? = some bucket → ∀ p ∈ HlEvent.passes s.log,
    ∃ key, bucket = some key ∧ p.1 < key
  ready : ∀ key, s.pass.due? = some (some key) → (∀ w, s.pass ≠ .sleeping key w) →
    (key : ℚ) ≤ s.clock * 1000
  sleeping : ∀ key w, s.pass = .sleeping key w → (key : ℚ) ≤ (w + (s.clock - s.mono)) * 1000
  fetching : ∀ key fetch, s.pass = .fetching key fetch → ∃ addresses,
    (HlEvent.passes s.log).getLast? = some (key, addresses) ∧ fetch.tsMs = key ∧
    fetch.Pooled addresses (max 1 c.concurrency) ∧ ∀ r ∈ HlEvent.accountRows s.log, r.tsMs < key
  rows : ∀ r ∈ HlEvent.accountRows s.log, ∃ p ∈ HlEvent.passes s.log, r.tsMs = p.1
  nodup : (∀ rows ∈ HlEvent.snapshots s.log, (rows.map (·.address)).Nodup) →
    ((HlEvent.accountRows s.log).map fun r => (r.tsMs, r.address)).Nodup

theorem follows_init (clock mono : ℚ) : Follows c { clock, mono } where
  current := rfl
  allowed := .nil
  keys := .nil
  past _ h := nomatch h
  due _ _ _ h := nomatch h
  ready _ h := nomatch h
  sleeping _ _ h := nomatch h
  fetching _ _ h := nomatch h
  rows _ h := nomatch h
  nodup _ := .nil

/-- Another place of `poll_leaderboard`. -/
theorem Follows.leader (H : s.Follows c) (leader : LeaderPc) (nextTry : ℚ)
    (fetches : List LeaderFetch) : Follows c { s with leader, nextTry, fetches } :=
  ⟨H.current, H.allowed, H.keys, H.past, H.due, H.ready, H.sleeping, H.fetching, H.rows, H.nodup⟩

/-- A leaderboard is put. -/
theorem Follows.leaderboard (H : s.Follows c) {rows : List LeaderRow} {addresses : List String}
    (haddr : addresses = (rows.take c.trackTop).map (·.address)) (day : Option Int)
    (leader : LeaderPc) (fetches : List LeaderFetch) :
    Follows c { s with
      leader, fetches, log := s.log ++ [.leaderboard rows], tracker := ⟨addresses, day⟩ } := by
  have hsnapshots : HlEvent.snapshots (s.log ++ [.leaderboard rows]) =
      HlEvent.snapshots s.log ++ [rows] := List.filterMap_append
  have hpasses : HlEvent.passes (s.log ++ [.leaderboard rows]) = HlEvent.passes s.log := by
    rw [HlEvent.passes, List.filterMap_append]
    exact List.append_nil _
  have hrows : HlEvent.accountRows (s.log ++ [.leaderboard rows]) =
      HlEvent.accountRows s.log := by
    rw [HlEvent.accountRows, List.flatMap_append]
    exact List.append_nil _
  refine ⟨?_, H.allowed.snoc trivial, ?_, ?_, ?_, H.ready, H.sleeping, ?_, ?_, fun h => ?_⟩
  · rw [hsnapshots, List.getLast?_concat]
    exact haddr
  · rw [hpasses]
    exact H.keys
  · rw [hpasses]
    exact H.past
  · rw [hpasses]
    exact H.due
  · rw [hpasses, hrows]
    exact H.fetching
  · rw [hpasses, hrows]
    exact H.rows
  · rw [hrows]
    refine H.nodup fun rows' hrows' => h rows' ?_
    rw [hsnapshots]
    exact List.mem_append_left _ hrows'

/-- The poll idles. -/
theorem Follows.idle (H : s.Follows c) {pass : PassPc}
    (h : pass = .stopped ∨ ∃ bucket, s.pass.due? = some bucket ∧
      (pass = .ready bucket ∨ ∃ w, pass = .waiting bucket w) ∧
      ∀ key w, s.pass = .sleeping key w → w ≤ s.mono) : Follows c { s with pass } := by
  rcases h with rfl | ⟨bucket, hbucket, hpass, hwake⟩
  · exact ⟨H.current, H.allowed, H.keys, H.past, fun _ h => (nomatch h), fun _ h => (nomatch h),
      fun _ _ h => (nomatch h), fun _ _ h => (nomatch h), H.rows, H.nodup⟩
  · have hdue : pass.due? = some bucket := by
      rcases hpass with rfl | ⟨w, rfl⟩ <;> rfl
    refine ⟨H.current, H.allowed, H.keys, H.past, fun bucket' h => ?_, fun key h _ => ?_,
      fun key w h => ?_, fun key fetch h => ?_, H.rows, H.nodup⟩
    · rw [hdue] at h
      cases h
      exact H.due bucket hbucket
    · rw [hdue] at h
      cases h
      by_cases hsleep : ∃ w, s.pass = .sleeping key w
      · obtain ⟨w, hw⟩ := hsleep
        have hle := hwake key w hw
        have hkey := H.sleeping key w hw
        change (key : ℚ) ≤ s.clock * 1000
        linarith
      · exact H.ready key hbucket fun w hw => hsleep ⟨w, hw⟩
    · change pass = _ at h
      rcases hpass with rfl | ⟨w', rfl⟩ <;> cases h
    · change pass = _ at h
      rcases hpass with rfl | ⟨w', rfl⟩ <;> cases h

/-- A pass begins. -/
theorem Follows.passBegin (H : s.Follows c) {bucket : Option Int} (hpc : s.pass = .ready bucket)
    (haddr : s.tracker.addresses ≠ []) : (s.passBegin c bucket).Follows c := by
  set key := bucket.getD (bucketMs (clockMs s.clock) c.intervalS) with hkey
  have hsnapshots : HlEvent.snapshots (s.log ++ [.pass key s.tracker.addresses]) =
      HlEvent.snapshots s.log := snapshots_concat_of_none rfl
  have hpasses : HlEvent.passes (s.log ++ [.pass key s.tracker.addresses]) =
      HlEvent.passes s.log ++ [(key, s.tracker.addresses)] := List.filterMap_append
  have hrows : HlEvent.accountRows (s.log ++ [.pass key s.tracker.addresses]) =
      HlEvent.accountRows s.log := by
    rw [HlEvent.accountRows, List.flatMap_append]
    exact List.append_nil _
  have hnew : ∀ p ∈ HlEvent.passes s.log, p.1 < key := by
    intro p hp
    obtain ⟨key', rfl, hlt⟩ := H.due bucket (by rw [hpc]; rfl) p hp
    exact hlt
  have hclock : (key : ℚ) ≤ s.clock * 1000 := by
    cases bucket with
    | none =>
      rw [hkey, Option.getD_none, bucketMs_eq]
      refine le_trans ?_ (Int.floor_le (s.clock * 1000))
      exact_mod_cast Grid.floor_le gridMs_pos _
    | some key' =>
      exact H.ready key' (by rw [hpc]; rfl) fun w hw => by rw [hpc] at hw; cases hw
  have hlast : ∃ rows, (HlEvent.snapshots s.log).getLast? = some rows ∧
      s.tracker.addresses = (rows.take c.trackTop).map (·.address) := by
    have hcurrent := H.current
    cases hrows : (HlEvent.snapshots s.log).getLast? with
    | none =>
      rw [hrows] at hcurrent
      exact (haddr hcurrent).elim
    | some rows =>
      rw [hrows] at hcurrent
      exact ⟨rows, rfl, hcurrent⟩
  refine ⟨?_, H.allowed.snoc ⟨haddr, hlast⟩, ?_, fun p hp => ?_, fun _ h => (nomatch h),
    fun _ h => (nomatch h), fun _ _ h => (nomatch h), fun key' fetch h => ?_, fun r hr => ?_,
    fun h => ?_⟩
  · rw [HlTracking.passBegin, hsnapshots]
    exact H.current
  · rw [HlTracking.passBegin, hpasses]
    refine List.pairwise_append.mpr ⟨H.keys, List.pairwise_singleton .., fun p hp p' hp' => ?_⟩
    rw [List.mem_singleton.mp hp']
    exact hnew p hp
  · rw [HlTracking.passBegin, hpasses] at hp
    rcases List.mem_append.mp hp with hp | hp
    · exact H.past p hp
    · rw [List.mem_singleton.mp hp]
      exact hclock
  · cases h
    refine ⟨s.tracker.addresses, ?_, rfl, PositionsFetch.pooled_start .., fun r hr => ?_⟩
    · rw [HlTracking.passBegin, hpasses, List.getLast?_concat]
    · rw [HlTracking.passBegin, hrows] at hr
      obtain ⟨p, hp, heq⟩ := H.rows r hr
      rw [heq]
      exact hnew p hp
  · rw [HlTracking.passBegin, hrows] at hr
    obtain ⟨p, hp, heq⟩ := H.rows r hr
    refine ⟨p, ?_, heq⟩
    rw [HlTracking.passBegin, hpasses]
    exact List.mem_append_left _ hp
  · rw [HlTracking.passBegin, hrows]
    refine H.nodup fun rows hrows' => h rows ?_
    rw [HlTracking.passBegin, hsnapshots]
    exact hrows'

/-- What a fetch has put together, whether or not it is over. -/
theorem rows_of_pooled {fetch : PositionsFetch} {addresses : List String} {n : ℕ}
    (H : fetch.Pooled addresses n) :
    (∀ a ∈ fetch.accounts, a.tsMs = fetch.tsMs) ∧
    (fetch.accounts.map (·.address)).Subperm addresses ∧
    ∀ p ∈ fetch.positions, p.tsMs = fetch.tsMs ∧ p.address ∈ addresses := by
  have hsub : (fetch.fetched.map FetchedAccount.address).Subperm addresses := by
    refine List.Subperm.trans (List.Sublist.subperm ?_) H.once.subperm
    exact (List.sublist_append_right ..).trans (List.sublist_append_left ..)
  refine ⟨fun a ha => ?_, ?_, fun p hp => ?_⟩
  · rw [H.accounts] at ha
    obtain ⟨x, -, rfl⟩ := List.mem_map.mp ha
    rfl
  · rw [H.accounts, List.map_map]
    exact hsub
  · rw [H.positions] at hp
    obtain ⟨x, hx, hp⟩ := List.mem_flatMap.mp hp
    obtain ⟨y, -, hy⟩ := List.mem_filterMap.mp hp
    split at hy
    · cases hy
    · cases hy
    · cases hy
      exact ⟨rfl, hsub.subset (List.mem_map_of_mem hx)⟩

/-- A pass ends. -/
theorem Follows.passEnd (H : s.Follows c) {key : Int} {fetch : PositionsFetch}
    (hpc : s.pass = .fetching key fetch) : (s.passEnd c fetch).Follows c := by
  obtain ⟨addresses, hlast, hts, hpooled, hbelow⟩ := H.fetching key fetch hpc
  obtain ⟨haccounts, hsub, hpositions⟩ := rows_of_pooled hpooled
  rw [hts] at haccounts hpositions
  have hmem : (key, addresses) ∈ HlEvent.passes s.log := List.mem_of_getLast? hlast
  have hsnapshots : HlEvent.snapshots (s.log ++ [.positions fetch.accounts fetch.positions]) =
      HlEvent.snapshots s.log := snapshots_concat_of_none rfl
  have hpasses : HlEvent.passes (s.log ++ [.positions fetch.accounts fetch.positions]) =
      HlEvent.passes s.log := by
    rw [HlEvent.passes, List.filterMap_append]
    exact List.append_nil _
  have hrows : HlEvent.accountRows (s.log ++ [.positions fetch.accounts fetch.positions]) =
      HlEvent.accountRows s.log ++ fetch.accounts := by
    rw [HlEvent.accountRows, List.flatMap_append, List.flatMap_singleton]
    rfl
  refine ⟨?_, H.allowed.snoc ⟨key, addresses, hlast, haccounts, hsub, hpositions⟩, ?_, ?_,
    fun bucket h p hp => ?_, fun key' h hne => ?_, fun key' w h => ?_, fun _ _ h => (nomatch h),
    fun r hr => ?_, fun h => ?_⟩
  · rw [HlTracking.passEnd, hsnapshots]
    exact H.current
  · rw [HlTracking.passEnd, hpasses]
    exact H.keys
  · rw [HlTracking.passEnd, hpasses]
    exact H.past
  · cases h
    refine ⟨_, rfl, ?_⟩
    rw [HlTracking.passEnd, hpasses] at hp
    exact_mod_cast (H.past p hp).trans_lt (lt_boundaryMs).1
  · cases h
    exact (hne _ rfl).elim
  · cases h
    rw [boundaryMs_cast, HlTracking.passEnd, boundaryMarginS]
    change _ ≤ (s.mono + (nextBoundaryS s.clock c.intervalS - s.clock + 2 / 100) +
      (s.clock - s.mono)) * 1000
    linarith
  · rw [HlTracking.passEnd, hrows] at hr
    rw [HlTracking.passEnd, hpasses]
    rcases List.mem_append.mp hr with hr | hr
    · exact H.rows r hr
    · exact ⟨_, hmem, haccounts r hr⟩
  · rw [HlTracking.passEnd, hsnapshots] at h
    rw [HlTracking.passEnd, hrows, List.map_append]
    refine List.nodup_append'.mpr ⟨H.nodup h, ?_, fun k hk hk' => ?_⟩
    · -- the addresses of the pass are of one leaderboard
      obtain ⟨pre, post, hlog⟩ : ∃ pre post, s.log = pre ++ .pass key addresses :: post := by
        obtain ⟨e, he, hpass⟩ := List.mem_filterMap.mp hmem
        obtain ⟨pre, post, hlog⟩ := List.append_of_mem he
        cases e with
        | pass bucket addresses' =>
          cases hpass
          exact ⟨pre, post, hlog⟩
        | leaderboard _ => cases hpass
        | positions _ _ => cases hpass
      obtain ⟨-, rows, hrows', rfl⟩ := H.allowed pre _ post hlog
      have hin : rows ∈ HlEvent.snapshots s.log := by
        rw [hlog, HlEvent.snapshots, List.filterMap_append]
        exact List.mem_append_left _ (List.mem_of_getLast? hrows')
      have hnodup : ((rows.take c.trackTop).map (·.address)).Nodup :=
        (h rows hin).sublist ((List.take_sublist ..).map _)
      have haddr : (fetch.accounts.map (·.address)).Nodup := by
        obtain ⟨l, hperm, hl⟩ := hsub
        exact hperm.nodup_iff.mp (hnodup.sublist hl)
      refine List.Nodup.of_map Prod.snd ?_
      rw [List.map_map]
      exact haddr
    · obtain ⟨r, hr, rfl⟩ := List.mem_map.mp hk
      obtain ⟨r', hr', heq⟩ := List.mem_map.mp hk'
      have hts' : r'.tsMs = r.tsMs := congrArg Prod.fst heq
      have hlt := hbelow r hr
      rw [← hts', haccounts r' hr'] at hlt
      exact lt_irrefl _ hlt

/-- The fetch of the pass takes a step. -/
theorem Follows.act (H : s.Follows c) {a : FetchAct} {pass : PassPc}
    (h : s.pass.act a = some pass) : Follows c { s with pass } := by
  cases hpc : s.pass with
  | fetching key fetch =>
    rw [hpc] at h
    obtain ⟨fetch', hfetch, rfl⟩ := Option.map_eq_some_iff.mp h
    refine ⟨H.current, H.allowed, H.keys, H.past, fun _ h => (nomatch h), fun _ h => (nomatch h),
      fun _ _ h => (nomatch h), fun key' fetch'' h => ?_, H.rows, H.nodup⟩
    cases h
    obtain ⟨addresses, hlast, hts, hpooled, hbelow⟩ := H.fetching key fetch hpc
    exact ⟨addresses, hlast, (PositionsFetch.tsMs_step hfetch).trans hts, hpooled.step hfetch,
      hbelow⟩
  | _ =>
    rw [hpc] at h
    cases h

theorem Follows.act_getD (H : s.Follows c) (a : FetchAct) :
    Follows c { s with pass := (s.pass.act a).getD s.pass } := by
  cases h : s.pass.act a with
  | none => exact H
  | some pass => exact H.act h

theorem Follows.step (H : s.Follows c) {a : TrackAct} (h : s.step c a = some s') :
    s'.Follows c := by
  cases a with
  | elapse dt =>
    obtain ⟨hdt, h⟩ := Option.ite_none_right_eq_some.mp h
    cases h
    have H' := H.act_getD (.elapse dt)
    have hclock : s.clock * 1000 ≤ (s.clock + dt) * 1000 := by linarith
    refine ⟨H'.current, H'.allowed, H'.keys, fun p hp => (H'.past p hp).trans hclock, H'.due,
      fun key h hne => (H'.ready key h hne).trans hclock, fun key w h => ?_, H'.fetching, H'.rows,
      H'.nodup⟩
    have hkey := H'.sleeping key w h
    change (key : ℚ) ≤ (w + (s.clock - s.mono)) * 1000 at hkey
    change (key : ℚ) ≤ (w + (s.clock + dt - (s.mono + dt))) * 1000
    linarith
  | setStop =>
    cases h
    have H' := H.act_getD .setStop
    exact ⟨H'.current, H'.allowed, H'.keys, H'.past, H'.due, H'.ready, H'.sleeping, H'.fetching,
      H'.rows, H'.nodup⟩
  | leader =>
    obtain ⟨leader, rfl, -, -⟩ := leaderStep_cases h
    exact H.leader ..
  | begin =>
    rw [HlTracking.step] at h
    split at h
    · cases h
      exact H.leader ..
    · cases h
  | reply reply =>
    rw [HlTracking.step] at h
    split at h
    · next start nowMs hpc =>
      cases h
      rcases @replied_cases c s start nowMs reply with
        ⟨payload, rows, items, -, -, htop, heq⟩ | heq <;> rw [heq]
      · exact H.leaderboard rfl ..
      · exact H.leader ..
    · cases h
  | pass =>
    rcases passStep_cases h with ⟨pass, rfl, hpass⟩ | ⟨bucket, hpc, haddr, rfl⟩ |
      ⟨key, fetch, hpc, rfl⟩
    · exact H.idle hpass
    · exact H.passBegin hpc haddr
    · exact H.passEnd hpc
  | proceed i =>
    obtain ⟨pass, hpass, rfl⟩ := Option.map_eq_some_iff.mp h
    exact H.act hpass
  | answer i reply receivedMs =>
    obtain ⟨pass, hpass, rfl⟩ := Option.map_eq_some_iff.mp h
    exact H.act hpass

/-! ## Runs -/

/-- The leaderboards come from replies. -/
def Listed (acts : List TrackAct) (s : HlTracking) : Prop :=
  ∀ rows ∈ HlEvent.snapshots s.log, ∃ payload items day, TrackAct.reply (.ok payload) ∈ acts ∧
    payload.leaderboardRows = some items ∧ IsTop items day rows

theorem listed_init (clock mono : ℚ) : Listed [] { clock, mono } := fun _ h => nomatch h

theorem Listed.of_snapshots {acts : List TrackAct} (H : Listed acts s) (a : TrackAct)
    (h : HlEvent.snapshots s'.log = HlEvent.snapshots s.log) : Listed (acts ++ [a]) s' := by
  intro rows hrows
  rw [h] at hrows
  obtain ⟨payload, items, day, hmem, hitems, htop⟩ := H rows hrows
  exact ⟨payload, items, day, List.mem_append_left _ hmem, hitems, htop⟩

theorem Listed.step {acts : List TrackAct} (H : Listed acts s) {a : TrackAct}
    (h : s.step c a = some s') : Listed (acts ++ [a]) s' := by
  cases a with
  | elapse dt =>
    obtain ⟨-, h⟩ := Option.ite_none_right_eq_some.mp h
    cases h
    exact H.of_snapshots _ rfl
  | setStop =>
    cases h
    exact H.of_snapshots _ rfl
  | leader =>
    obtain ⟨leader, rfl, -, -⟩ := leaderStep_cases h
    exact H.of_snapshots _ rfl
  | begin =>
    rw [HlTracking.step] at h
    split at h
    · cases h
      exact H.of_snapshots _ rfl
    · cases h
  | reply reply =>
    rw [HlTracking.step] at h
    split at h
    · next start nowMs hpc =>
      cases h
      rcases @replied_cases c s start nowMs reply with
        ⟨payload, rows, items, rfl, hitems, htop, heq⟩ | heq <;> rw [heq]
      · intro rows' hrows'
        have hsnapshots : HlEvent.snapshots (s.log ++ [.leaderboard rows]) =
            HlEvent.snapshots s.log ++ [rows] := List.filterMap_append
        rw [hsnapshots] at hrows'
        rcases List.mem_append.mp hrows' with hrows' | hrows'
        · obtain ⟨payload', items', day, hmem, hitems', htop'⟩ := H rows' hrows'
          exact ⟨payload', items', day, List.mem_append_left _ hmem, hitems', htop'⟩
        · rw [List.mem_singleton.mp hrows']
          exact ⟨payload, items, _, List.mem_append_right _ (List.mem_singleton_self _), hitems,
            htop⟩
      · exact H.of_snapshots _ rfl
    · cases h
  | pass =>
    rcases passStep_cases h with ⟨pass, rfl, -⟩ | ⟨bucket, -, -, rfl⟩ | ⟨key, fetch, -, rfl⟩
    · exact H.of_snapshots _ rfl
    · exact H.of_snapshots _ (snapshots_concat_of_none rfl)
    · exact H.of_snapshots _ (snapshots_concat_of_none rfl)
  | proceed i =>
    obtain ⟨pass, -, rfl⟩ := Option.map_eq_some_iff.mp h
    exact H.of_snapshots _ rfl
  | answer i reply receivedMs =>
    obtain ⟨pass, -, rfl⟩ := Option.map_eq_some_iff.mp h
    exact H.of_snapshots _ rfl

variable {clock mono : ℚ} {acts : List TrackAct}

/-- In every run whose wall clock is not set back a day has one leaderboard at most, each is the top
of a reply, and after a failure no request begins for an hour. -/
theorem daily (h : run c { clock, mono } acts = some s) :
    (HlEvent.snapshots s.log).Pairwise (fun rows rows' =>
      ∀ r ∈ rows, ∀ r' ∈ rows', r.snapshotDay < r'.snapshotDay) ∧
    (∀ rows ∈ HlEvent.snapshots s.log, ∃ payload items day,
      TrackAct.reply (.ok payload) ∈ acts ∧ payload.leaderboardRows = some items ∧
      IsTop items day rows) ∧
    s.fetches.Pairwise fun f f' => f.ok = false → f.finish + leaderboardRetryS ≤ f'.start := by
  have H : s.Daily := Trace.invariant (fun _ _ _ H ha => H.step ha) (daily_init ..) h
  have H' : Listed acts s :=
    Trace.invariant_acts (fun _ _ _ _ H ha => H.step ha) (listed_init clock mono) h
  exact ⟨H.days, H', H.spaced⟩

/-- In every run whose wall clock is not set back, however the pollers and the workers are
interleaved: a pass follows the top of the leaderboard that was put last before it, its rows are of
its addresses and its key; the keys only increase; and while no leaderboard has an address twice, no
account has two rows of one key. -/
theorem followed (h : run c { clock, mono } acts = some s) :
    Trace.Allowed (Follow c) s.log ∧
    (HlEvent.passes s.log).Pairwise (fun p p' => p.1 < p'.1) ∧
    ((∀ rows ∈ HlEvent.snapshots s.log, (rows.map (·.address)).Nodup) →
      ((HlEvent.accountRows s.log).map fun r => (r.tsMs, r.address)).Nodup) := by
  have H : s.Follows c := Trace.invariant (fun _ _ _ H ha => H.step ha) (follows_init ..) h
  exact ⟨H.allowed, H.keys, H.nodup⟩

/-- A request fails, another has three items of which two are followed; one of their accounts
fails. -/
def twoOfThree : List TrackAct := [
  .pass, .leader, .begin, .reply (.error "timeout"), .elapse 60, .leader, .leader, .elapse 3600,
  .leader, .leader, .begin,
  .reply (.ok { leaderboardRows := some [some ⟨some "0xa", some 5, []⟩, none,
    some ⟨some "0xb", some 9, [some ("day", some 1), none]⟩, some ⟨some "0xc", some 7, []⟩] }),
  .pass, .pass, .proceed 0, .answer 0 (.ok {}) 1, .elapse 2, .proceed 0, .proceed 0,
  .answer 0 (.error "reset") 2, .elapse 2, .proceed 0, .proceed 0, .pass]

def smallTracking : TrackingConfig where
  trackTop := 2
  intervalS := 300
  concurrency := 1
  gapS := 2
  checkS := 60

theorem daily_twoOfThree : ∃ s, run smallTracking { clock := 86000, mono := 5 } twoOfThree =
    some s ∧ (HlEvent.snapshots s.log).map (fun rows => rows.map fun r =>
      (r.snapshotDay, r.rank, r.address)) = [[(1, 1, "0xb"), (1, 2, "0xc"), (1, 3, "0xa")]] ∧
    s.fetches.Pairwise fun f f' => f.ok = false → f.finish + leaderboardRetryS ≤ f'.start := by
  have hrun : (run smallTracking { clock := 86000, mono := 5 } twoOfThree).map (fun s =>
      (HlEvent.snapshots s.log).map fun rows => rows.map fun r =>
        (r.snapshotDay, r.rank, r.address)) =
      some [[(1, 1, "0xb"), (1, 2, "0xc"), (1, 3, "0xa")]] := by
    decide +kernel
  obtain ⟨s, hs, hrows⟩ := Option.map_eq_some_iff.mp hrun
  exact ⟨s, hs, hrows, (daily hs).2.2⟩

theorem followed_twoOfThree : ∃ s, run smallTracking { clock := 86000, mono := 5 } twoOfThree =
    some s ∧ HlEvent.passes s.log = [(89400000, ["0xb", "0xc"])] ∧
    (HlEvent.accountRows s.log).map (fun r => (r.tsMs, r.address)) = [(89400000, "0xb")] ∧
    ((HlEvent.accountRows s.log).map fun r => (r.tsMs, r.address)).Nodup := by
  have hrun : (run smallTracking { clock := 86000, mono := 5 } twoOfThree).map (fun s =>
      ((HlEvent.snapshots s.log).map fun rows => rows.map (·.address), HlEvent.passes s.log,
        (HlEvent.accountRows s.log).map fun r => (r.tsMs, r.address))) =
      some ([["0xb", "0xc", "0xa"]], [(89400000, ["0xb", "0xc"])], [(89400000, "0xb")]) := by
    decide +kernel
  obtain ⟨s, hs, hfacts⟩ := Option.map_eq_some_iff.mp hrun
  obtain ⟨hsnapshots, hfacts⟩ := Prod.mk.inj hfacts
  obtain ⟨hpasses, hrows⟩ := Prod.mk.inj hfacts
  refine ⟨s, hs, hpasses, hrows, (followed hs).2.2 fun rows hmem => ?_⟩
  have hin : rows.map (·.address) ∈ [["0xb", "0xc", "0xa"]] := by
    rw [← hsnapshots]
    exact List.mem_map_of_mem hmem
  rw [List.mem_singleton.mp hin]
  decide

end HlTracking

end P300
