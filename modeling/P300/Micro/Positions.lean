import P300.Basic
import P300.Lib.Spaced
import P300.Lib.Trace

/-!
# The positions poll

`hyperliquid.fetch_positions`: a few workers take the tracked addresses off one list, request the
state of each account and pause after it. Whatever the order in which the workers go on, each
address is requested once and the requests keep their pace.
-/

namespace P300

/-! ## The rows of an account -/

/-- An entry of `assetPositions`; what does not parse as a number is `none`. -/
structure HlPosition where
  coin : Option String
  szi : Option ℚ := none
  entryPx : Option ℚ := none
  positionValue : Option ℚ := none
  liquidationPx : Option ℚ := none
  leverageType : Option String := none
  leverageValue : Option ℚ := none
  unrealizedPnl : Option ℚ := none
  marginUsed : Option ℚ := none

/-- A reply to `clearinghouseState`. -/
structure Clearinghouse where
  accountValue : Option ℚ := none
  totalNtlPos : Option ℚ := none
  totalMarginUsed : Option ℚ := none
  assetPositions : List HlPosition := []

/-- A row of `hl_accounts`. -/
structure HlAccountRow where
  tsMs : Int
  address : String
  accountValue : Option ℚ
  totalNtlPos : Option ℚ
  totalMarginUsed : Option ℚ
  nPositions : ℕ
  receivedMs : Int

/-- A row of `hl_positions`. -/
structure HlPositionRow where
  tsMs : Int
  address : String
  coin : String
  position : HlPosition
  receivedMs : Int

/-- The rows that `parse_clearinghouse` makes of the positions; one without a coin has none. -/
def positionRows (payload : Clearinghouse) (tsMs : Int) (address : String) (receivedMs : Int) :
    List HlPositionRow :=
  payload.assetPositions.filterMap fun p =>
    match p.coin with
    | none | some "" => none
    | some coin => some ⟨tsMs, address, coin, p, receivedMs⟩

/-- `parse_clearinghouse` -/
def parseClearinghouse (payload : Clearinghouse) (tsMs : Int) (address : String)
    (receivedMs : Int) : HlAccountRow × List HlPositionRow :=
  let positions := positionRows payload tsMs address receivedMs
  (⟨tsMs, address, payload.accountValue, payload.totalNtlPos, payload.totalMarginUsed,
    positions.length, receivedMs⟩, positions)

/-! ## The workers -/

/-- Where a worker is. -/
inductive WorkerPc
  | ready
  | fetching (address : String)
  | pausing (wake : ℚ)
  | ended
  deriving DecidableEq

def WorkerPc.fetching? : WorkerPc → Option String
  | .fetching address => some address
  | _ => none

/-- An account that was fetched. -/
structure FetchedAccount where
  address : String
  payload : Clearinghouse
  receivedMs : Int

def FetchedAccount.rows (tsMs : Int) (a : FetchedAccount) : HlAccountRow × List HlPositionRow :=
  parseClearinghouse a.payload tsMs a.address a.receivedMs

/-- A call of `fetch_positions`; `requests` has the worker and the time of each request. -/
structure PositionsFetch where
  tsMs : Int
  gapS : ℚ
  clock : ℚ
  stop : Bool
  pending : List String
  workers : List WorkerPc
  accounts : List HlAccountRow := []
  positions : List HlPositionRow := []
  requests : List (ℕ × ℚ) := []
  fetched : List FetchedAccount := []
  failed : List String := []

inductive FetchAct
  | elapse (dt : ℚ)
  | setStop
  /-- The worker goes on to its next address, or awakes. -/
  | proceed (i : ℕ)
  /-- The request of the worker is answered, or fails. -/
  | answer (i : ℕ) (reply : Except String Clearinghouse) (receivedMs : Int)

namespace PositionsFetch

variable (s : PositionsFetch)

def start (addresses : List String) (tsMs : Int) (concurrency : ℕ) (gapS clock : ℚ)
    (stop : Bool) : PositionsFetch where
  tsMs
  gapS
  clock
  stop
  pending := addresses
  workers := List.replicate (max 1 concurrency) .ready

/-- The head of the loop of `worker`. -/
def head (i : ℕ) : PositionsFetch :=
  match s.pending, s.stop with
  | address :: pending, false => { s with
      pending
      workers := s.workers.set i (.fetching address)
      requests := s.requests ++ [(i, s.clock)] }
  | _, _ => { s with workers := s.workers.set i .ended }

/-- The pause after a request. -/
def pause (i : ℕ) : PositionsFetch :=
  { s with
    workers := s.workers.set i
      (if s.gapS ≠ 0 ∧ ¬ s.stop then .pausing (s.clock + s.gapS) else .ready) }

/-- The end of a request. -/
def answer (i : ℕ) (address : String) (reply : Except String Clearinghouse) (receivedMs : Int) :
    PositionsFetch :=
  match reply with
  | .error _ => pause { s with failed := s.failed ++ [address] } i
  | .ok payload =>
    let (account, positions) := parseClearinghouse payload s.tsMs address receivedMs
    pause { s with
      accounts := s.accounts ++ [account]
      positions := s.positions ++ positions
      fetched := s.fetched ++ [⟨address, payload, receivedMs⟩] } i

def step : FetchAct → Option PositionsFetch
  | .elapse dt => if 0 ≤ dt then some { s with clock := s.clock + dt } else none
  | .setStop => some { s with stop := true }
  | .proceed i =>
    match s.workers[i]? with
    | some .ready => some (s.head i)
    | some (.pausing wake) =>
      if s.stop ∨ wake ≤ s.clock then some { s with workers := s.workers.set i .ready } else none
    | _ => none
  | .answer i reply receivedMs =>
    match s.workers[i]? with
    | some (.fetching address) => some (s.answer i address reply receivedMs)
    | _ => none

def run (acts : List FetchAct) : Option PositionsFetch := Trace.run step s acts

/-- The addresses that are being requested. -/
def inFlight : List String := s.workers.filterMap WorkerPc.fetching?

/-- `fetch_positions` returns. -/
def Over : Prop := ∀ w ∈ s.workers, w = .ended

end PositionsFetch

/-! ## The order of the addresses -/

/-- A worker that goes on takes up another address. -/
theorem filterMap_set_perm {workers : List WorkerPc} {i : ℕ} {w : WorkerPc}
    (w' : WorkerPc) (h : workers[i]? = some w) :
    ((workers.set i w').filterMap WorkerPc.fetching? ++ w.fetching?.toList).Perm
      (workers.filterMap WorkerPc.fetching? ++ w'.fetching?.toList) := by
  obtain ⟨hi, rfl⟩ := List.getElem?_eq_some_iff.mp h
  have hw : workers = workers.take i ++ workers[i] :: workers.drop (i + 1) := by
    rw [List.cons_getElem_drop_succ, List.take_append_drop]
  have hcons : ∀ v l, (v :: l).filterMap WorkerPc.fetching? =
      v.fetching?.toList ++ l.filterMap WorkerPc.fetching? := by
    intro v l
    rw [List.filterMap_cons]
    cases v.fetching? <;> rfl
  have hset : (workers.set i w').filterMap WorkerPc.fetching? =
      (workers.take i).filterMap WorkerPc.fetching? ++ (w'.fetching?.toList ++
        (workers.drop (i + 1)).filterMap WorkerPc.fetching?) := by
    rw [List.set_eq_take_append_cons_drop, if_pos hi, List.filterMap_append, hcons]
  have hself : workers.filterMap WorkerPc.fetching? =
      (workers.take i).filterMap WorkerPc.fetching? ++ (workers[i].fetching?.toList ++
        (workers.drop (i + 1)).filterMap WorkerPc.fetching?) := by
    rw [← hcons, ← List.filterMap_append, ← hw]
  rw [hset, hself, List.perm_iff_count]
  intro a
  simp only [List.count_append]
  omega

namespace PositionsFetch

variable {s s' : PositionsFetch} {addresses : List String} {c : ℕ}

/-- What holds in every run over `addresses` with `c` workers. -/
structure Pooled (addresses : List String) (c : ℕ) (s : PositionsFetch) : Prop where
  workers : s.workers.length = c
  accounts : s.accounts = s.fetched.map fun a => (a.rows s.tsMs).1
  positions : s.positions = s.fetched.flatMap fun a => (a.rows s.tsMs).2
  once : (s.pending ++ s.inFlight ++ s.fetched.map FetchedAccount.address ++
    s.failed).Perm addresses
  ended : ∀ w ∈ s.workers, w = .ended → s.pending = [] ∨ s.stop = true
  past : ∀ r ∈ s.requests, r.2 ≤ s.clock
  log : Spaced.Log c s.gapS s.requests
  ready : ∀ i, s.workers[i]? = some .ready →
    s.stop = true ∨ ∀ r ∈ s.requests, r.1 = i → r.2 + s.gapS ≤ s.clock
  pausing : ∀ i wake, s.workers[i]? = some (.pausing wake) →
    ∀ r ∈ s.requests, r.1 = i → r.2 + s.gapS ≤ wake

theorem pooled_start (addresses : List String) (tsMs : Int) (concurrency : ℕ) (gapS clock : ℚ)
    (stop : Bool) : (start addresses tsMs concurrency gapS clock stop).Pooled addresses
      (max 1 concurrency) where
  workers := List.length_replicate
  accounts := rfl
  positions := rfl
  once := by
    have hnone : (start addresses tsMs concurrency gapS clock stop).inFlight = [] :=
      List.filterMap_replicate_of_none rfl
    rw [hnone]
    simp [start]
  ended w hw hend := by
    rw [List.eq_of_mem_replicate hw] at hend
    cases hend
  past _ hr := nomatch hr
  log := .nil
  ready _ _ := .inr fun _ hr => nomatch hr
  pausing _ _ _ _ hr := nomatch hr

/-- A worker that is not `i`, after `i` has gone on. -/
theorem getElem?_set_cases {workers : List WorkerPc} {i j : ℕ} {w v : WorkerPc}
    (h : (workers.set i w)[j]? = some v) : j = i ∧ v = w ∨ j ≠ i ∧ workers[j]? = some v := by
  rcases eq_or_ne i j with rfl | hne
  · have hi : i < workers.length := by
      have := (List.getElem?_eq_some_iff.mp h).1
      rwa [List.length_set] at this
    rw [List.getElem?_set_self hi] at h
    exact .inl ⟨rfl, (Option.some_inj.mp h).symm⟩
  · rw [List.getElem?_set_ne hne] at h
    exact .inr ⟨hne.symm, h⟩

/-- The worker `i` waits, and its own requests are over for the gap when it goes on. -/
theorem Pooled.setWorker (H : s.Pooled addresses c) {i : ℕ} {w w' : WorkerPc}
    (hw : s.workers[i]? = some w) (hf : w.fetching? = none) (hf' : w'.fetching? = none)
    (hend : w' = .ended → s.pending = [] ∨ s.stop = true)
    (hready : w' = .ready → s.stop = true ∨ ∀ r ∈ s.requests, r.1 = i → r.2 + s.gapS ≤ s.clock)
    (hpausing : ∀ wake, w' = .pausing wake → ∀ r ∈ s.requests, r.1 = i → r.2 + s.gapS ≤ wake) :
    Pooled addresses c { s with workers := s.workers.set i w' } := by
  refine ⟨?_, H.accounts, H.positions, ?_, fun v hv hv' => ?_, H.past, H.log, fun j hj => ?_,
    fun j wake hj => ?_⟩
  · exact List.length_set.trans H.workers
  · have hperm := filterMap_set_perm w' hw
    rw [hf, hf', Option.toList_none, List.append_nil, List.append_nil] at hperm
    exact (((hperm.append_left _).append_right _).append_right _).trans H.once
  · rcases List.mem_or_eq_of_mem_set hv with hv | rfl
    · exact H.ended v hv hv'
    · exact hend hv'
  · rcases getElem?_set_cases hj with ⟨rfl, hw'⟩ | ⟨-, hj⟩
    · exact hready hw'.symm
    · exact H.ready j hj
  · rcases getElem?_set_cases hj with ⟨rfl, hw'⟩ | ⟨-, hj⟩
    · exact hpausing wake hw'.symm
    · exact H.pausing j wake hj

/-- A worker takes the next address, or ends. -/
theorem Pooled.head (H : s.Pooled addresses c) {i : ℕ} (hw : s.workers[i]? = some .ready) :
    (s.head i).Pooled addresses c := by
  unfold PositionsFetch.head
  split
  · next address pending hpending hstop =>
    have hi : i < c := H.workers ▸ (List.getElem?_eq_some_iff.mp hw).1
    have hgap := (H.ready i hw).resolve_left (by rw [hstop]; exact Bool.false_ne_true)
    refine ⟨List.length_set.trans H.workers, H.accounts, H.positions, ?_, fun v hv hv' => ?_, ?_,
      H.log.snoc hi H.past hgap, fun j hj => ?_, fun j wake hj => ?_⟩
    · refine List.Perm.trans ?_ H.once
      have hperm := filterMap_set_perm (.fetching address) hw
      rw [hpending]
      refine List.Perm.append_right _ (List.Perm.append_right _ ?_)
      rw [List.perm_iff_count] at hperm ⊢
      intro a
      have hcount := hperm a
      simp only [WorkerPc.fetching?, Option.toList_none, Option.toList_some, List.append_nil,
        List.count_append, inFlight, List.cons_append, List.count_cons, List.count_nil] at hcount ⊢
      omega
    · rcases List.mem_or_eq_of_mem_set hv with hv | rfl
      · rcases H.ended v hv hv' with h | h
        · rw [hpending] at h
          cases h
        · rw [hstop] at h
          cases h
      · cases hv'
    · intro r hr
      rcases List.mem_append.mp hr with hr | hr
      · exact H.past r hr
      · rw [List.mem_singleton.mp hr]
    · rcases getElem?_set_cases hj with ⟨-, hw'⟩ | ⟨hne, hj⟩
      · cases hw'
      · refine (H.ready j hj).imp_right fun hown r hr hrj => ?_
        rcases List.mem_append.mp hr with hr | hr
        · exact hown r hr hrj
        · rw [List.mem_singleton.mp hr] at hrj
          exact absurd hrj.symm hne
    · rcases getElem?_set_cases hj with ⟨-, hw'⟩ | ⟨hne, hj⟩
      · cases hw'
      · intro r hr hrj
        rcases List.mem_append.mp hr with hr | hr
        · exact H.pausing j wake hj r hr hrj
        · rw [List.mem_singleton.mp hr] at hrj
          exact absurd hrj.symm hne
  · next hnot =>
    refine H.setWorker hw rfl rfl (fun _ => ?_) (fun h => by cases h) fun _ h => by cases h
    cases hpending : s.pending with
    | nil => exact .inl rfl
    | cons address pending =>
      cases hstop : s.stop with
      | false => exact (hnot address pending hpending hstop).elim
      | true => exact .inr rfl

/-- The worker pauses after its address. -/
theorem Pooled.pause (H : s.Pooled addresses c) {i : ℕ} {address : String}
    (hw : s.workers[i]? = some (.fetching address)) {accounts : List HlAccountRow}
    {positions : List HlPositionRow} {fetched : List FetchedAccount} {failed : List String}
    (haccounts : accounts = fetched.map fun a => (a.rows s.tsMs).1)
    (hpositions : positions = fetched.flatMap fun a => (a.rows s.tsMs).2)
    (honce : (fetched.map FetchedAccount.address ++ failed).Perm
      (address :: (s.fetched.map FetchedAccount.address ++ s.failed))) :
    Pooled addresses c (pause { s with accounts, positions, fetched, failed } i) := by
  refine ⟨List.length_set.trans H.workers, haccounts, hpositions, ?_, fun v hv hv' => ?_, H.past,
    H.log, fun j hj => ?_, fun j wake hj => ?_⟩
  · refine List.Perm.trans ?_ H.once
    have hperm := filterMap_set_perm
      (if s.gapS ≠ 0 ∧ ¬ s.stop then .pausing (s.clock + s.gapS) else .ready) hw
    have hnone : (if s.gapS ≠ 0 ∧ ¬ s.stop then WorkerPc.pausing (s.clock + s.gapS)
        else .ready).fetching? = none := by
      split <;> rfl
    rw [hnone] at hperm
    rw [List.perm_iff_count] at hperm honce ⊢
    intro a
    have hcount := hperm a
    have hcount' := honce a
    simp only [WorkerPc.fetching?, Option.toList_none, Option.toList_some, List.append_nil,
      List.count_append, inFlight, PositionsFetch.pause, List.count_cons, List.count_nil]
      at hcount hcount' ⊢
    omega
  · rcases List.mem_or_eq_of_mem_set hv with hv | rfl
    · exact H.ended v hv hv'
    · split at hv' <;> cases hv'
  · rcases getElem?_set_cases hj with ⟨rfl, hw'⟩ | ⟨-, hj⟩
    · split at hw'
      · cases hw'
      · next hnot =>
        by_cases hstop : s.stop = true
        · exact .inl hstop
        · have hgap : s.gapS = 0 := by_contra fun hgap => hnot ⟨hgap, hstop⟩
          refine .inr fun r hr _ => ?_
          change r.2 + s.gapS ≤ s.clock
          rw [hgap, add_zero]
          exact H.past r hr
    · exact H.ready j hj
  · rcases getElem?_set_cases hj with ⟨rfl, hw'⟩ | ⟨-, hj⟩
    · split at hw'
      · cases hw'
        exact fun r hr _ => add_le_add_left (H.past r hr) _
      · cases hw'
    · exact H.pausing j wake hj

theorem Pooled.answer (H : s.Pooled addresses c) {i : ℕ} {address : String}
    (hw : s.workers[i]? = some (.fetching address)) (reply : Except String Clearinghouse)
    (receivedMs : Int) : (s.answer i address reply receivedMs).Pooled addresses c := by
  cases reply with
  | error e =>
    refine H.pause hw H.accounts H.positions ?_
    rw [← List.append_assoc]
    exact List.perm_append_singleton ..
  | ok payload =>
    refine H.pause hw ?_ ?_ ?_
    · rw [H.accounts, List.map_append]
      rfl
    · rw [H.positions, List.flatMap_append, List.flatMap_singleton]
      rfl
    · rw [List.map_append, List.append_assoc]
      exact List.perm_middle

theorem Pooled.step (H : s.Pooled addresses c) {a : FetchAct} (h : s.step a = some s') :
    s'.Pooled addresses c := by
  cases a with
  | elapse dt =>
    obtain ⟨hdt, h⟩ := Option.ite_none_right_eq_some.mp h
    cases h
    have hle : s.clock ≤ s.clock + dt := le_add_of_nonneg_right hdt
    exact ⟨H.workers, H.accounts, H.positions, H.once, H.ended, fun r hr => (H.past r hr).trans hle,
      H.log, fun i hi => (H.ready i hi).imp_right fun hown r hr hri => (hown r hr hri).trans hle,
      H.pausing⟩
  | setStop =>
    cases h
    exact ⟨H.workers, H.accounts, H.positions, H.once, fun _ _ _ => .inr rfl, H.past, H.log,
      fun _ _ => .inl rfl, H.pausing⟩
  | proceed i =>
    rw [PositionsFetch.step] at h
    split at h
    · next hw =>
      cases h
      exact H.head hw
    · next wake hw =>
      obtain ⟨hwake, h⟩ := Option.ite_none_right_eq_some.mp h
      cases h
      refine H.setWorker hw rfl rfl (fun h => by cases h) (fun _ => ?_) fun _ h => by cases h
      exact hwake.imp_right fun hle r hr hri => (H.pausing i wake hw r hr hri).trans hle
    · cases h
  | answer i reply receivedMs =>
    rw [PositionsFetch.step] at h
    split at h
    · next address hw =>
      cases h
      exact H.answer hw reply receivedMs
    · cases h

theorem tsMs_step {a : FetchAct} (h : s.step a = some s') : s'.tsMs = s.tsMs := by
  cases a with
  | elapse dt =>
    obtain ⟨-, h⟩ := Option.ite_none_right_eq_some.mp h
    cases h
    rfl
  | setStop =>
    cases h
    rfl
  | proceed i =>
    rw [PositionsFetch.step] at h
    split at h
    · cases h
      rw [head]
      split <;> rfl
    · obtain ⟨-, h⟩ := Option.ite_none_right_eq_some.mp h
      cases h
      rfl
    · cases h
  | answer i reply receivedMs =>
    rw [PositionsFetch.step] at h
    split at h
    · cases h
      cases reply <;> rfl
    · cases h

/-- In whatever order the workers go on: each address is pending, in flight, fetched or failed,
once; the rows are those of the fetched accounts; no more requests than workers are in flight, and
that many requests after a request the gap is over; and if the poll ends without a stop, each
address was fetched or failed. -/
theorem pooled {tsMs : Int} {concurrency : ℕ} {gapS clock : ℚ} {stop : Bool} {acts : List FetchAct}
    (h : (start addresses tsMs concurrency gapS clock stop).run acts = some s) :
    (s.pending ++ s.inFlight ++ s.fetched.map FetchedAccount.address ++ s.failed).Perm addresses ∧
    s.accounts = s.fetched.map (fun a => (a.rows s.tsMs).1) ∧
    s.positions = s.fetched.flatMap (fun a => (a.rows s.tsMs).2) ∧
    s.inFlight.length ≤ max 1 concurrency ∧
    (∀ i r r', s.requests[i]? = some r → s.requests[i + max 1 concurrency]? = some r' →
      r.2 + s.gapS ≤ r'.2) ∧
    (s.Over → s.stop = false →
      (s.fetched.map FetchedAccount.address ++ s.failed).Perm addresses) := by
  have H : s.Pooled addresses (max 1 concurrency) :=
    Trace.invariant (fun _ _ _ H ha => H.step ha) (pooled_start ..) h
  refine ⟨H.once, H.accounts, H.positions, ?_, fun i r r' hr hr' => ?_, fun hover hstop => ?_⟩
  · exact (List.length_filterMap_le ..).trans H.workers.le
  · obtain ⟨hlt, rfl⟩ := List.getElem?_eq_some_iff.mp hr
    obtain ⟨hi, rfl⟩ := List.getElem?_eq_some_iff.mp hr'
    exact H.log.span hlt hi
  · have hflight : s.inFlight = [] :=
      List.filterMap_eq_nil_iff.mpr fun w hw => by rw [hover w hw]; rfl
    have hne : s.workers ≠ [] := by
      rw [← List.length_pos_iff, H.workers]
      exact Nat.lt_of_lt_of_le Nat.one_pos (le_max_left ..)
    obtain ⟨w, hw⟩ := List.exists_mem_of_ne_nil _ hne
    have hpending := (H.ended w hw (hover w hw)).resolve_right (by
      rw [hstop]
      exact Bool.false_ne_true)
    have honce := H.once
    rwa [hflight, hpending] at honce

/-- Two workers, three addresses, of which one fails. -/
def threeAddresses : List FetchAct := [
  .proceed 0, .proceed 1, .elapse 1, .answer 1 (.error "timeout") 0,
  .answer 0 (.ok { assetPositions := [⟨some "BTC", some 2, none, none, none, none, none, none,
    none⟩, { coin := none }] }) 0, .elapse 2, .proceed 1, .proceed 1, .proceed 0, .proceed 0,
  .answer 1 (.ok {}) 3, .elapse 2, .proceed 1, .proceed 1]

theorem pooled_threeAddresses : ∃ s, (start ["0xa", "0xb", "0xc"] 300000 2 2 0 false).run
    threeAddresses = some s ∧ s.requests = [(0, 0), (1, 0), (1, 3)] ∧
    s.accounts.map (fun a => (a.address, a.nPositions)) = [("0xa", 1), ("0xc", 0)] ∧
    (s.fetched.map FetchedAccount.address ++ s.failed).Perm ["0xa", "0xb", "0xc"] := by
  obtain ⟨s, hs⟩ : ∃ s, (start ["0xa", "0xb", "0xc"] 300000 2 2 0 false).run threeAddresses =
      some s := Option.isSome_iff_exists.mp (by decide +kernel)
  have hfacts : ∀ s ∈ (start ["0xa", "0xb", "0xc"] 300000 2 2 0 false).run threeAddresses,
      s.workers = [.ended, .ended] ∧ s.stop = false ∧ s.requests = [(0, 0), (1, 0), (1, 3)] ∧
      s.accounts.map (fun a => (a.address, a.nPositions)) = [("0xa", 1), ("0xc", 0)] := by
    decide +kernel
  obtain ⟨hworkers, hstop, hrequests, haccounts⟩ := hfacts s hs
  have hover : s.Over := by
    rw [Over, hworkers]
    decide
  exact ⟨s, hs, hrequests, haccounts, (pooled hs).2.2.2.2.2 hover hstop⟩

end PositionsFetch

end P300
