import P300.Calendar
import P300.Lib.Dict

/-!
# The tick log

`botlib.record_tick` counts the ticks of a call in `bot_tick_daily`, keeps those worth a row in
`bot_ticks` and remembers their statuses, on which it depends whether the next ticks are worth a
row. A statement may fail; the call then leaves the tables and the memory as they were.
-/

namespace P300

/-! ## The detail of a decision -/

/-- A scalar; a float is known by its `repr`. -/
inductive DetailScalar
  | null
  | str (text : String)
  | int (n : ℤ)
  | float (repr : String)
  | bool (b : Bool)

/-- A value of a decision's detail. -/
inductive DetailValue
  | scalar (x : DetailScalar)
  /-- A list or a tuple. An item that is no scalar is `none`. -/
  | items (xs : List (Option DetailScalar))
  /-- A dict, or anything else. -/
  | other

/-- What `keep` lets through. -/
inductive KeptValue
  | scalar (x : DetailScalar)
  | list (xs : List DetailScalar)

def tickDetailMaxChars : ℕ := 4000

def tickListMaxItems : ℕ := 20

/-- `keep`, with the list that a tuple becomes. -/
def DetailValue.keep : DetailValue → Option KeptValue
  | .scalar x => some (.scalar x)
  | .items xs => if xs.length ≤ tickListMaxItems then (xs.mapM id).map .list else none
  | .other => none

/-- `f"{n:04x}"` -/
def hex4 (n : ℕ) : List Char :=
  List.replicate (4 - (Nat.toDigits 16 n).length) '0' ++ Nat.toDigits 16 n

/-- A character in a text of `json.dumps`. -/
def jsonChar (c : Char) : List Char :=
  let n := c.toNat
  if c = '"' then ['\\', '"']
  else if c = '\\' then ['\\', '\\']
  else if c = '\n' then ['\\', 'n']
  else if c = '\r' then ['\\', 'r']
  else if c = '\t' then ['\\', 't']
  else if n = 12 then ['\\', 'f']
  else if n = 8 then ['\\', 'b']
  else if 32 ≤ n ∧ n ≤ 126 then [c]
  else if n < 65_536 then '\\' :: 'u' :: hex4 n
  else '\\' :: 'u' :: hex4 (55_296 + (n - 65_536) / 1024) ++
    '\\' :: 'u' :: hex4 (56_320 + (n - 65_536) % 1024)

def jsonString (text : String) : String :=
  String.ofList ('"' :: text.toList.flatMap jsonChar ++ ['"'])

def DetailScalar.json : DetailScalar → String
  | .null => "null"
  | .str text => jsonString text
  | .int n => toString n
  | .float repr => repr
  | .bool b => if b then "true" else "false"

def KeptValue.json : KeptValue → String
  | .scalar x => x.json
  | .list xs => "[" ++ ",".intercalate (xs.map DetailScalar.json) ++ "]"

/-- `json.dumps(kept, default=str, separators=(",", ":"))` -/
def jsonDumps (kept : List (String × KeptValue)) : String :=
  "\x7b" ++ ",".intercalate (kept.map fun e => jsonString e.1 ++ ":" ++ e.2.json) ++ "\x7d"

/-- `_compact_detail`; `none` is a detail that is no dict. -/
def compactDetail (detail : Option (Dict String DetailValue)) : Option String :=
  match detail with
  | none => none
  | some detail =>
    let kept := detail.entries.filterMap fun e => e.2.keep.map fun v => (e.1, v)
    if kept = [] then none
    else
      let text := jsonDumps kept
      let text := if tickDetailMaxChars < text.length then
          jsonDumps (kept.filter fun e => match e.2 with | .list _ => false | .scalar _ => true)
        else text
      some (if tickDetailMaxChars < text.length then
          jsonDumps [("_truncated", .scalar (.int text.length))]
        else text)

example : compactDetail (some ((Dict.empty.set "regime" (.scalar (.str "bull_30d"))).set
      "bars" .other)) =
    some "\x7b\"regime\":\"bull_30d\"\x7d" := by decide +kernel

/-! ## A tick -/

/-- `out.get("opened")`, `out.get("backstop_closed")` -/
inductive TickIds
  | none
  | one (id : String)
  | many (ids : List String)

def TickIds.ids : TickIds → List String
  | .none => []
  | .one id => [id]
  | .many ids => ids

/-- `_joined` -/
def TickIds.joined : TickIds → Option String
  | .none => .none
  | .one id => if id = "" then .none else some id
  | .many ids => if ids = [] then .none else some (",".intercalate ids)

/-- The truth value of a text that may be missing. -/
def textTruth : Option String → Bool
  | some text => text ≠ ""
  | none => false

/-- `x or default` of a text -/
def textOr (x : Option String) (default : String) : String := (x.filter (· ≠ "")).getD default

/-- The result of a variant's tick. -/
structure VariantTick where
  status : Option String
  hbStatus : Option String
  hbNote : Option String
  evaluated : Bool
  signal : Bool
  opened : TickIds
  backstopClosed : TickIds
  detail : Option (Dict String DetailValue)

/-- What a tick that raised is recorded as. -/
def raisedTick (errorNote : String) : VariantTick where
  status := some "tick_error"
  hbStatus := some "error"
  hbNote := some errorNote
  evaluated := false
  signal := false
  opened := .none
  backstopClosed := .none
  detail := none

/-- A row of `bot_ticks`, less its key. -/
structure TickRow where
  status : String
  hbStatus : String
  note : Option String
  evaluated : Bool
  signal : Bool
  opened : Option String
  closed : Option String
  detail : Option String
  deriving DecidableEq

/-- The row of a tick. -/
def tickRow (out : VariantTick) : TickRow where
  status := textOr out.status "?"
  hbStatus := textOr out.hbStatus "ok"
  note := out.hbNote.filter (· ≠ "")
  evaluated := out.evaluated
  signal := out.signal
  opened := out.opened.joined
  closed := out.backstopClosed.joined
  detail := compactDetail out.detail

/-- `worth_a_row`, where `last` is the status remembered. -/
def worthARow (last : Option String) (row : TickRow) : Bool :=
  some row.status ≠ last || row.hbStatus ≠ "ok" || row.signal || textTruth row.opened ||
    textTruth row.closed

/-! ## A call -/

/-- `bot_tick_daily`, by day, bot, variant and status, and `bot_ticks`, by bot, variant and time. -/
structure TickTables where
  daily : Dict (String × String × String × String) ℤ
  ticks : Dict (String × String × String) TickRow

/-- `INSERT … ON CONFLICT DO UPDATE SET n = n + 1` -/
def TickTables.count (key : String × String × String × String) (t : TickTables) : TickTables :=
  { t with daily := t.daily.set key (((t.daily.get? key).map (· + 1)).getD 1) }

/-- `INSERT OR REPLACE` -/
def TickTables.keep (key : String × String × String) (row : TickRow) (t : TickTables) :
    TickTables :=
  { t with ticks := t.ticks.set key row }

/-- The statements of a call. -/
inductive TickStatement
  | connect
  | count (variant : String)
  | keep (variant : String)
  | commit
  deriving DecidableEq

/-- A call of `record_tick`, the time that it reads and the statements that fail in it. -/
structure TickCall where
  bot : String
  ticks : Dict String (Option VariantTick)
  errorNote : String
  now : Time
  inRange : InRange (utcDate now)
  fails : TickStatement → Bool

namespace TickCall

def nowIso (c : TickCall) : String := isoformat c.now

/-- `now_iso[:10]` -/
def day (c : TickCall) : String := String.ofList (c.nowIso.toList.take 10)

/-- The row of a tick of the call. -/
def row (c : TickCall) (out : Option VariantTick) : TickRow :=
  tickRow (out.getD (raisedTick c.errorNote))

end TickCall

/-- What the loop of a call carries: the tables as its connection sees them, and the rest. -/
structure TickLoop where
  tables : TickTables
  remembered : Dict (String × String) String
  written : ℕ

/-- The body of the loop. -/
def recordVariant (c : TickCall) (lastTickStatus : Dict (String × String) String) (s : TickLoop)
    (e : String × Option VariantTick) : Except TickStatement TickLoop :=
  let (variant, out) := e
  let row := c.row out
  if c.fails (.count variant) then .error (.count variant)
  else
    let s := { s with
      tables := s.tables.count (c.day, c.bot, variant, row.status)
      remembered := s.remembered.set (c.bot, variant) row.status }
    if !worthARow (lastTickStatus.get? (c.bot, variant)) row then .ok s
    else if c.fails (.keep variant) then .error (.keep variant)
    else .ok { s with
      tables := s.tables.keep (c.bot, variant, c.nowIso) row
      written := s.written + 1 }

/-- The tables and `_last_tick_status` of the process. -/
structure TickLog where
  tables : TickTables
  lastTickStatus : Dict (String × String) String

/-- `_record_tick`; closing the connection without a commit rolls back. -/
def recordTick_ (c : TickCall) (log : TickLog) : Except TickStatement (ℕ × TickLog) :=
  if c.fails .connect then .error .connect
  else do
    let s ← c.ticks.entries.foldlM (recordVariant c log.lastTickStatus) ⟨log.tables, .empty, 0⟩
    if c.fails .commit then .error .commit
    else return (s.written, ⟨s.tables, log.lastTickStatus.upsert s.remembered.entries⟩)

/-- `botlib.record_tick` -/
def recordTick (c : TickCall) (log : TickLog) : ℤ × TickLog :=
  match recordTick_ c log with
  | .ok (written, log) => (written, log)
  | .error _ => (-1, log)

namespace TickLog

/-- A process starts with an empty memory. -/
def start (tables : TickTables) : TickLog := ⟨tables, .empty⟩

def run (log : TickLog) (calls : List TickCall) : TickLog :=
  calls.foldl (fun log c => (recordTick c log).2) log

/-- The calls of a run that return `>= 0`. -/
def recorded (log : TickLog) : List TickCall → List TickCall
  | [] => []
  | c :: calls =>
    if 0 ≤ (recordTick c log).1 then c :: recorded (recordTick c log).2 calls
    else recorded (recordTick c log).2 calls

end TickLog

/-! ## What a call does -/

/-- The counter of a day, bot, variant and status. -/
def TickTables.counter (t : TickTables) (key : String × String × String × String) : ℤ :=
  (t.daily.get? key).getD 0

theorem counter_count (t : TickTables) (key key' : String × String × String × String) :
    (t.count key).counter key' = t.counter key' + if key = key' then 1 else 0 := by
  rw [TickTables.counter, TickTables.count, Dict.get?_set, TickTables.counter]
  by_cases h : key' = key
  · subst h
    rw [if_pos rfl, if_pos rfl]
    cases t.daily.get? key' with
    | none => rfl
    | some n => rfl
  · rw [if_neg h, if_neg (Ne.symm h), Int.add_zero]

namespace TickCall

variable {c : TickCall} {last : Dict (String × String) String} {s : TickLoop}
  {entries : List (String × Option VariantTick)}

/-- The statement at which a tick ends the call. -/
def failing (c : TickCall) (last : Dict (String × String) String)
    (e : String × Option VariantTick) :
    Option TickStatement :=
  if c.fails (.count e.1) then some (.count e.1)
  else if worthARow (last.get? (c.bot, e.1)) (c.row e.2) ∧ c.fails (.keep e.1) then some (.keep e.1)
  else none

/-- What a tick does when no statement fails. -/
def next (c : TickCall) (last : Dict (String × String) String) (s : TickLoop)
    (e : String × Option VariantTick) : TickLoop :=
  let row := c.row e.2
  let worth := worthARow (last.get? (c.bot, e.1)) row
  let tables := s.tables.count (c.day, c.bot, e.1, row.status)
  { tables := if worth then tables.keep (c.bot, e.1, c.nowIso) row else tables
    remembered := s.remembered.set (c.bot, e.1) row.status
    written := if worth then s.written + 1 else s.written }

theorem recordVariant_eq (e : String × Option VariantTick) :
    recordVariant c last s e = (c.failing last e).elim (.ok (c.next last s e)) .error := by
  rw [recordVariant, failing, next]
  dsimp only
  cases c.fails (.count e.1) with
  | true => rfl
  | false =>
    cases worthARow (last.get? (c.bot, e.1)) (c.row e.2) with
    | false => rfl
    | true => cases c.fails (.keep e.1) <;> rfl

/-- The loop over some entries. -/
def loop (c : TickCall) (last : Dict (String × String) String) (s : TickLoop)
    (entries : List (String × Option VariantTick)) : TickLoop := entries.foldl (c.next last) s

/-- The counters that the call increments. -/
def keys (c : TickCall) : List (String × String × String × String) :=
  c.ticks.entries.map fun e => (c.day, c.bot, e.1, (c.row e.2).status)

/-- The status of the tick of a bot and a variant. -/
def statusOf (c : TickCall) (bot variant : String) : Option String :=
  if bot = c.bot then (c.ticks.get? variant).map fun out => (c.row out).status else none

theorem counter_loop (key : String × String × String × String) :
    (c.loop last s entries).tables.counter key = s.tables.counter key +
      (entries.map fun e => (c.day, c.bot, e.1, (c.row e.2).status)).count key := by
  induction entries generalizing s with
  | nil => exact (Int.add_zero _).symm
  | cons e entries ih =>
    have hnext : (c.next last s e).tables.counter key =
        (s.tables.count (c.day, c.bot, e.1, (c.row e.2).status)).counter key := by
      rw [next]
      dsimp only
      split <;> rfl
    rw [loop, List.foldl_cons, ← loop, ih, hnext, counter_count, List.map_cons, List.count_cons]
    by_cases h : (c.day, c.bot, e.1, (c.row e.2).status) = key
    · rw [if_pos h, if_pos (beq_iff_eq.mpr h)]
      omega
    · rw [if_neg h, if_neg fun hb => h (beq_iff_eq.mp hb)]
      omega

/-- A call writes rows of its own time only. -/
theorem ticks_loop {now : String} (hnow : now ≠ c.nowIso) (bot variant : String) :
    (c.loop last s entries).tables.ticks.get? (bot, variant, now) =
      s.tables.ticks.get? (bot, variant, now) := by
  induction entries generalizing s with
  | nil => rfl
  | cons e entries ih =>
    rw [loop, List.foldl_cons, ← loop, ih, next]
    dsimp only
    split
    · exact (Dict.get?_set ..).trans (if_neg fun h => hnow (congrArg (·.2.2) h))
    · rfl

/-- The row of a variant stays in the loop over other variants. -/
theorem ticks_loop_of_not_mem {variant : String} (h : variant ∉ entries.map Prod.fst)
    (bot now : String) :
    (c.loop last s entries).tables.ticks.get? (bot, variant, now) =
      s.tables.ticks.get? (bot, variant, now) := by
  induction entries generalizing s with
  | nil => rfl
  | cons e entries ih =>
    rw [List.map_cons, List.mem_cons, not_or] at h
    rw [loop, List.foldl_cons, ← loop, ih h.2, next]
    dsimp only
    split
    · exact (Dict.get?_set ..).trans (if_neg fun heq => h.1 (congrArg (·.2.1) heq))
    · rfl

theorem ticks_loop_of_worth (hnodup : (entries.map Prod.fst).Nodup) {variant : String}
    {out : Option VariantTick} (hmem : (variant, out) ∈ entries)
    (hworth : worthARow (last.get? (c.bot, variant)) (c.row out)) :
    (c.loop last s entries).tables.ticks.get? (c.bot, variant, c.nowIso) = some (c.row out) := by
  induction entries generalizing s with
  | nil => cases hmem
  | cons e entries ih =>
    obtain ⟨hnew, hnodup⟩ := List.nodup_cons.mp hnodup
    rw [loop, List.foldl_cons, ← loop]
    rcases List.mem_cons.mp hmem with rfl | hmem
    · rw [ticks_loop_of_not_mem hnew, next]
      dsimp only
      rw [if_pos hworth]
      exact (Dict.get?_set ..).trans (if_pos rfl)
    · exact ih hnodup hmem

theorem remembered_loop (hnodup : (entries.map Prod.fst).Nodup) (bot variant : String) :
    (c.loop last s entries).remembered.get? (bot, variant) =
      (if bot = c.bot then (entries.lookup variant).map fun out => (c.row out).status else none).or
        (s.remembered.get? (bot, variant)) := by
  induction entries generalizing s with
  | nil =>
    rw [List.lookup_nil, Option.map_none, ite_self, Option.none_or]
    rfl
  | cons e entries ih =>
    obtain ⟨hnew, hnodup⟩ := List.nodup_cons.mp hnodup
    rw [loop, List.foldl_cons, ← loop, ih hnodup, next, Dict.get?_set, List.lookup_cons]
    by_cases hbot : bot = c.bot
    · subst hbot
      by_cases hvariant : variant = e.1
      · have hnone : entries.lookup variant = none :=
          List.lookup_eq_none_iff.mpr fun e' he' => bne_iff_ne.mpr fun heq =>
            hnew (hvariant ▸ heq ▸ List.mem_map_of_mem he')
        rw [hnone, hvariant, beq_self_eq_true]
        simp
      · rw [beq_false_of_ne hvariant, if_neg fun h => hvariant (congrArg Prod.snd h)]
    · rw [if_neg hbot, if_neg hbot, if_neg fun h => hbot (congrArg Prod.fst h)]

end TickCall

/-- A call fails and leaves everything, or it records all its ticks. -/
theorem recordTick_cases (c : TickCall) (log : TickLog) :
    recordTick c log = (-1, log) ∨
    ∃ s, s = c.loop log.lastTickStatus ⟨log.tables, .empty, 0⟩ c.ticks.entries ∧
      recordTick c log =
        ((s.written : ℤ), ⟨s.tables, log.lastTickStatus.upsert s.remembered.entries⟩) := by
  rw [recordTick, recordTick_]
  split
  · next written log' h =>
    split at h
    · cases h
    obtain ⟨s, hs, h⟩ := of_bind_ok h
    rw [foldlM_exit (fun s e => TickCall.recordVariant_eq e)] at hs
    cases hfail : c.ticks.entries.findSome? (c.failing log.lastTickStatus) with
    | some w =>
      rw [hfail] at hs
      cases hs
    | none =>
      rw [hfail] at hs
      cases hs
      split at h
      · cases h
      · cases h
        exact .inr ⟨_, rfl, rfl⟩
  · exact .inl rfl

variable {c : TickCall} {log : TickLog}

/-- A call that fails changes nothing. -/
theorem recordTick_of_neg (h : (recordTick c log).1 < 0) : recordTick c log = (-1, log) := by
  obtain hfail | ⟨s, -, hs⟩ := recordTick_cases c log
  · exact hfail
  · rw [hs] at h
    exact absurd h (by simp)

theorem recordTick_of_nonneg (h : 0 ≤ (recordTick c log).1) :
    ∃ s, s = c.loop log.lastTickStatus ⟨log.tables, .empty, 0⟩ c.ticks.entries ∧
      recordTick c log =
        ((s.written : ℤ), ⟨s.tables, log.lastTickStatus.upsert s.remembered.entries⟩) := by
  obtain hfail | hok := recordTick_cases c log
  · rw [hfail] at h
    exact absurd h (Int.not_le.mpr (Int.negSucc_lt_zero 0))
  · exact hok

section Recorded

variable (h : 0 ≤ (recordTick c log).1)

include h

theorem counter_recordTick (key : String × String × String × String) :
    (recordTick c log).2.tables.counter key = log.tables.counter key + c.keys.count key := by
  obtain ⟨s, rfl, hs⟩ := recordTick_of_nonneg h
  rw [hs]
  exact TickCall.counter_loop key

theorem lastTickStatus_recordTick (bot variant : String) :
    (recordTick c log).2.lastTickStatus.get? (bot, variant) =
      (c.statusOf bot variant).or (log.lastTickStatus.get? (bot, variant)) := by
  obtain ⟨s, rfl, hs⟩ := recordTick_of_nonneg h
  rw [hs, Dict.get?_upsert_entries, TickCall.remembered_loop c.ticks.nodup, Dict.get?_empty,
    Option.or_none]
  rfl

theorem ticks_recordTick {now : String} (hnow : now ≠ c.nowIso) (bot variant : String) :
    (recordTick c log).2.tables.ticks.get? (bot, variant, now) =
      log.tables.ticks.get? (bot, variant, now) := by
  obtain ⟨s, rfl, hs⟩ := recordTick_of_nonneg h
  rw [hs]
  exact TickCall.ticks_loop hnow bot variant

theorem ticks_recordTick_of_worth {variant : String} {out : Option VariantTick}
    (hout : c.ticks.get? variant = some out)
    (hworth : worthARow (log.lastTickStatus.get? (c.bot, variant)) (c.row out)) :
    (recordTick c log).2.tables.ticks.get? (c.bot, variant, c.nowIso) = some (c.row out) := by
  obtain ⟨s, rfl, hs⟩ := recordTick_of_nonneg h
  rw [hs]
  exact TickCall.ticks_loop_of_worth c.ticks.nodup (c.ticks.mem_entries_iff.mpr hout) hworth

end Recorded

/-! ## A run of a process -/

/-- The status that the calls recorded last for a bot and a variant. -/
def lastRecorded (bot variant : String) (calls : List TickCall) : Option String :=
  (calls.filterMap (·.statusOf bot variant)).getLast?

theorem lastRecorded_cons (bot variant : String) (c : TickCall) (calls : List TickCall) :
    lastRecorded bot variant (c :: calls) =
      (lastRecorded bot variant calls).or (c.statusOf bot variant) := by
  rw [lastRecorded, List.filterMap_cons, lastRecorded]
  cases c.statusOf bot variant with
  | none => exact Option.or_none.symm
  | some status =>
    rw [List.getLast?_cons]
    cases (calls.filterMap (·.statusOf bot variant)).getLast? <;> rfl

namespace TickLog

theorem run_append (log : TickLog) (calls calls' : List TickCall) :
    log.run (calls ++ calls') = (log.run calls).run calls' := List.foldl_append

theorem counter_run (log : TickLog) (calls : List TickCall)
    (key : String × String × String × String) :
    (log.run calls).tables.counter key =
      log.tables.counter key + ((log.recorded calls).flatMap TickCall.keys).count key := by
  induction calls generalizing log with
  | nil => exact (Int.add_zero _).symm
  | cons c calls ih =>
    rw [run, List.foldl_cons, ← run, ih, recorded]
    split
    · next h =>
      rw [counter_recordTick h, List.flatMap_cons, List.count_append]
      omega
    · next h => rw [recordTick_of_neg (Int.not_le.mp h)]

/-- The memory holds what was recorded last. -/
theorem lastTickStatus_run (log : TickLog) (calls : List TickCall) (bot variant : String) :
    (log.run calls).lastTickStatus.get? (bot, variant) =
      (lastRecorded bot variant (log.recorded calls)).or
        (log.lastTickStatus.get? (bot, variant)) := by
  induction calls generalizing log with
  | nil => rfl
  | cons c calls ih =>
    rw [run, List.foldl_cons, ← run, ih, recorded]
    split
    · next h => rw [lastTickStatus_recordTick h, lastRecorded_cons, Option.or_assoc]
    · next h => rw [recordTick_of_neg (Int.not_le.mp h)]

/-- Calls at other times leave a row. -/
theorem ticks_run {log : TickLog} {calls : List TickCall} {now : String}
    (h : ∀ c ∈ calls, now ≠ c.nowIso) (bot variant : String) :
    (log.run calls).tables.ticks.get? (bot, variant, now) =
      log.tables.ticks.get? (bot, variant, now) := by
  induction calls generalizing log with
  | nil => rfl
  | cons c calls ih =>
    obtain ⟨hc, hcalls⟩ := List.forall_mem_cons.mp h
    rw [run, List.foldl_cons, ← run, ih hcalls]
    by_cases hok : 0 ≤ (recordTick c log).1
    · exact ticks_recordTick hok hc bot variant
    · rw [recordTick_of_neg (Int.not_le.mp hok)]

end TickLog

/-- The tick opened or closed a trade. -/
def TickIds.Names (ids : TickIds) : Prop := ∃ id ∈ ids.ids, id ≠ ""

theorem intercalate_eq_empty {sep : String} {l : List String} (h : sep.intercalate l = "") :
    ∀ s ∈ l, s = "" := by
  induction l with
  | nil => exact fun s hs => by cases hs
  | cons a l ih =>
    cases l with
    | nil => exact List.forall_mem_singleton.mpr (String.intercalate_singleton.symm.trans h)
    | cons b l =>
      rw [String.intercalate_cons_cons] at h
      obtain ⟨hasep, hl⟩ := String.append_eq_empty_iff.mp h
      exact List.forall_mem_cons.mpr ⟨(String.append_eq_empty_iff.mp hasep).1, ih hl⟩

theorem TickIds.Names.textTruth {ids : TickIds} (h : ids.Names) : textTruth ids.joined := by
  obtain ⟨id, hmem, hid⟩ := h
  cases ids with
  | none => cases hmem
  | one id' =>
    rw [List.mem_singleton.mp hmem] at hid
    rw [joined, if_neg hid]
    exact decide_eq_true hid
  | many ids =>
    have hne : ids ≠ [] := List.ne_nil_of_mem hmem
    rw [joined, if_neg hne]
    exact decide_eq_true fun hempty => hid (intercalate_eq_empty hempty id hmem)

/-- What makes a tick worth a row, whatever the status before it. -/
def VariantTick.Notable (out : VariantTick) : Prop :=
  textOr out.hbStatus "ok" ≠ "ok" ∨ out.signal ∨ out.opened.Names ∨ out.backstopClosed.Names

theorem worthARow_of_notable {out : VariantTick} (h : out.Notable) (last : Option String) :
    worthARow last (tickRow out) := by
  rw [worthARow]
  rcases h with h | h | h | h
  · simp [tickRow, h]
  · simp [tickRow, h]
  · simp [tickRow, h.textTruth]
  · simp [tickRow, h.textTruth]

theorem worthARow_of_status {last : Option String} {row : TickRow} (h : some row.status ≠ last) :
    worthARow last row := by
  rw [worthARow]
  simp [h]

/-- What the tick log promises of the calls of a process that finds `tables`. -/
structure LosesNoFire (tables : TickTables) (calls : List TickCall) : Prop where
  counters : ∀ key, ((TickLog.start tables).run calls).tables.counter key = tables.counter key +
    (((TickLog.start tables).recorded calls).flatMap TickCall.keys).count key
  /-- The ticks of the call `c`, which succeeds. -/
  rows : ∀ before c after, calls = before ++ c :: after →
    0 ≤ (recordTick c ((TickLog.start tables).run before)).1 →
    ∀ variant out, c.ticks.get? variant = some out →
      some (c.row out).status ≠
          lastRecorded c.bot variant ((TickLog.start tables).recorded before) ∨
        (out.getD (raisedTick c.errorNote)).Notable →
      ((TickLog.start tables).run calls).tables.ticks.get? (c.bot, variant, c.nowIso) =
        some (c.row out)
  failed : ∀ before c after, calls = before ++ c :: after →
    (recordTick c ((TickLog.start tables).run before)).1 < 0 →
    recordTick c ((TickLog.start tables).run before) = (-1, (TickLog.start tables).run before)

theorem record_tick_loses_no_fire {calls : List TickCall}
    (hclock : calls.Pairwise fun c c' => c.now < c'.now) (tables : TickTables) :
    LosesNoFire tables calls := by
  refine ⟨fun key => TickLog.counter_run _ calls key,
    fun before c after hcalls hok variant out hout hworth => ?_,
    fun before c after _ hneg => recordTick_of_neg hneg⟩
  subst hcalls
  have hafter : ∀ c' ∈ after, c.nowIso ≠ c'.nowIso := fun c' hc' heq =>
    ne_of_lt ((List.pairwise_cons.mp (List.pairwise_append.mp hclock).2.1).1 c' hc')
      (isoformat_inj c.inRange c'.inRange heq)
  have hlast := TickLog.lastTickStatus_run (TickLog.start tables) before c.bot variant
  rw [TickLog.run_append, TickLog.run, List.foldl_cons, ← TickLog.run, TickLog.ticks_run hafter]
  refine ticks_recordTick_of_worth hok hout ?_
  rw [hlast, show (TickLog.start tables).lastTickStatus = .empty from rfl, Dict.get?_empty,
    Option.or_none]
  rcases hworth with hstatus | hnotable
  · exact worthARow_of_status hstatus
  · exact worthARow_of_notable hnotable _

/-- A tick without a signal. -/
def quietTick (status : String) : VariantTick :=
  ⟨some status, some "ok", none, true, false, .none, .none, none⟩

theorem inRange_2026 {us : Int} (h : 1_767_225_600_000_000 ≤ us) (h' : us < 1_798_761_600_000_000) :
    InRange (utcDate us) := by
  rw [inRange_iff, utcDate]
  omega

/-- Three ticks of one variant, the second with a change of the status that cannot be committed. -/
def outageCalls : List TickCall :=
  [⟨"adx", Dict.empty.set "bot_adx_v1" (some (quietTick "no_action")), "", 1_772_000_000_000_000,
      inRange_2026 (by decide) (by decide), fun _ => false⟩,
    ⟨"adx", Dict.empty.set "bot_adx_v1" (some (quietTick "decided")), "", 1_772_000_060_000_000,
      inRange_2026 (by decide) (by decide), fun w => w = .commit⟩,
    ⟨"adx", Dict.empty.set "bot_adx_v1" (some (quietTick "decided")), "", 1_772_000_120_000_000,
      inRange_2026 (by decide) (by decide), fun _ => false⟩]

theorem record_tick_loses_no_fire_outage :
    LosesNoFire ⟨.empty, .empty⟩ outageCalls ∧
    (((TickLog.start ⟨.empty, .empty⟩).run outageCalls).tables.ticks.entries.map fun e =>
      (e.1.2.2, e.2.status)) =
      [("2026-02-25T06:13:20+00:00", "no_action"), ("2026-02-25T06:15:20+00:00", "decided")] :=
  ⟨record_tick_loses_no_fire (by decide) _, by decide +kernel⟩

end P300
