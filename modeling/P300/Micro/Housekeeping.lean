import Mathlib.Algebra.BigOperators.Group.List.Basic
import P300.Lib.Hysteresis
import P300.Lib.Trace
import P300.Micro.WriterAccount

/-!
# The housekeeping of the collector

`collector.py`: once a minute `_housekeeping` guards the disk and writes a heartbeat that names what
went wrong since the one before: rows that the writer dropped, flushes that failed, streams that are
silent. Beside it the writer runs. Once a task has died a heartbeat names the dead tasks only, and
what the writer counts from then on is in no heartbeat.
-/

namespace P300

variable {ρ : Type}

def pauseFreeBytes : Int := 5_000_000_000

def resumeFreeBytes : Int := 8_000_000_000

/-- `should_pause_depth` -/
def shouldPauseDepth (free : Option Int) (paused : Bool) : Bool :=
  match free with
  | none => paused
  | some free => if paused then free ≤ resumeFreeBytes else free < pauseFreeBytes

/-- The streams of `ALLOWANCE_S`. -/
inductive MicroStream
  | binanceDepth
  | binanceForceorder
  | bybitLiq
  | okxLiq
  | hlCtx
  | hlPositions
  deriving DecidableEq

def MicroStream.allowanceS : MicroStream → Int
  | .binanceDepth => 30
  | .binanceForceorder => 30 * 60
  | .bybitLiq => 60 * 60
  | .okxLiq => 30 * 60
  | .hlCtx => 5 * 60
  | .hlPositions => 15 * 60

def MicroStream.all : List MicroStream :=
  [.binanceDepth, .binanceForceorder, .bybitLiq, .okxLiq, .hlCtx, .hlPositions]

def writerStallS : Int := 60

/-- What a note of the heartbeat says. -/
inductive BeatNote
  | writer (dropped failures : ℕ) (lastError : String)
  | stalled (queued : ℕ) (forMs : Int)
  | diskLow (free : Option Int)
  deriving DecidableEq

inductive BeatStatus
  | ok
  | degraded
  | error
  deriving DecidableEq

/-- `silent_streams`; each stream of the table has a status. -/
def silentStreams (lastMsgMs : MicroStream → Option Int) (nowMs startedMs : Int) :
    List MicroStream :=
  MicroStream.all.filter fun name =>
    nowMs - (lastMsgMs name).getD startedMs > name.allowanceS * 1000

/-- The note of `writer_notes` on a flush that is stalled on a locked database. -/
def stallNotes (w : Writer ρ) (nowMs : Int) : List BeatNote :=
  match w.lastFlushOkMs with
  | none => []
  | some last =>
    if w.len ≠ 0 ∧ nowMs - last > writerStallS * 1000 then [.stalled w.len (nowMs - last)] else []

/-- `writer_notes` -/
def writerNotes (w : Writer ρ) (prev : ℕ × ℕ) (nowMs : Int) : List BeatNote × (ℕ × ℕ) :=
  let cur := (w.dropped, w.flushFailures)
  let counts :=
    if cur.1 > prev.1 ∨ cur.2 > prev.2 then
      [BeatNote.writer (cur.1 - prev.1) (cur.2 - prev.2) w.lastFlushError]
    else []
  (counts ++ stallNotes w nowMs, cur)

/-- `disk_note` -/
def diskNote (free : Option Int) (paused : Bool) : List BeatNote :=
  if paused then [.diskLow free] else []

/-- The note of a heartbeat. Its parts are joined to a text that is cut at 500 characters; the
counts of the writer come before the cut. -/
inductive BeatText
  | none
  | errors (errors : List String)
  | parts (silent : List MicroStream) (notes : List BeatNote)
  deriving DecidableEq

/-- What the writer and the disk guard have in it. -/
def BeatText.notes : BeatText → List BeatNote
  | parts _ notes => notes
  | _ => []

/-- `derive_status`: a dead task wins, and nothing else is said then. -/
def deriveStatus (errors : List String) (silent : List MicroStream) (notes : List BeatNote) :
    BeatStatus × BeatText :=
  if errors ≠ [] then (.error, .errors errors)
  else if silent ≠ [] ∨ notes ≠ [] then (.degraded, .parts silent notes)
  else (.ok, .none)

/-- A heartbeat: what a pass hands to the status file and to `botlib`, with the reading of the disk
before it. Whether the two are written is not followed. -/
structure Beat where
  nowMs : Int
  free : Option Int
  status : BeatStatus
  note : BeatText

def BeatNote.dropped : BeatNote → ℕ
  | .writer dropped _ _ => dropped
  | _ => 0

def BeatNote.failures : BeatNote → ℕ
  | .writer _ failures _ => failures
  | _ => 0

namespace Beat

variable (b : Beat)

/-- The dropped rows that it reports. -/
def dropped : ℕ := (b.note.notes.map BeatNote.dropped).sum

/-- The failed flushes that it reports. -/
def failures : ℕ := (b.note.notes.map BeatNote.failures).sum

end Beat

/-- The collector from the start of `_housekeeping`. -/
structure Collector (ρ : Type) where
  sys : WriterSys ρ
  startedMs : Int
  lastMsgMs : MicroStream → Option Int := fun _ => none
  errors : List String := []
  prev : ℕ × ℕ
  beats : List Beat := []

inductive CollectorAct (ρ : Type)
  /-- A row is put, or the flush goes on. -/
  | writer (a : WriterAct ρ)
  | message (name : MicroStream) (nowMs : Int)
  /-- `_guarded` records a task that died. -/
  | died (e : String)
  /-- A pass of `_housekeeping`. -/
  | tick (free : Option Int) (nowMs : Int)

namespace Collector

variable (s : Collector ρ)

def start (sys : WriterSys ρ) (startedMs : Int) : Collector ρ :=
  { sys, startedMs, prev := (sys.writer.dropped, sys.writer.flushFailures) }

def tick (free : Option Int) (nowMs : Int) : Collector ρ :=
  let paused := shouldPauseDepth free s.sys.writer.depthPaused
  let sys := { s.sys with writer := { s.sys.writer with depthPaused := paused } }
  let (notes, prev) := writerNotes sys.writer s.prev nowMs
  let notes := notes ++ diskNote free paused
  let silent := silentStreams s.lastMsgMs nowMs s.startedMs
  let (status, note) := deriveStatus s.errors silent notes
  { s with sys, prev, beats := s.beats ++ [{ nowMs, free, status, note }] }

def step : CollectorAct ρ → Option (Collector ρ)
  | .writer (.pause _) => none
  | .writer a => (s.sys.step a).map fun sys => { s with sys }
  | .message name nowMs =>
    some { s with lastMsgMs := Function.update s.lastMsgMs name (some nowMs) }
  | .died e => some { s with errors := s.errors ++ [e] }
  | .tick free nowMs => some (s.tick free nowMs)

def run (acts : List (CollectorAct ρ)) : Option (Collector ρ) := Trace.run step s acts

end Collector

/-! ## What an act of the writer adds -/

/-- What has become of the rows, from `s` on to `s'`, without a change of the disk guard. -/
structure WriterSys.Grows (s s' : WriterSys ρ) : Prop where
  evicted : s.evicted <+: s'.evicted
  failures : s.writer.flushFailures ≤ s'.writer.flushFailures
  spared : s'.writer.flushFailures = s.writer.flushFailures → s'.lost = s.lost
  paused : s'.writer.depthPaused = s.writer.depthPaused
  accepted : s.writer.depthPaused = false → s'.refused = s.refused

namespace WriterSys

variable {s s' : WriterSys ρ} {maxQueue : ℕ}

theorem Accounted.grows (H : s.Accounted maxQueue) (h1 : 1 ≤ maxQueue) {a : WriterAct ρ}
    (ha : ∀ paused, a ≠ .pause paused) (h : s.step a = some s') : s.Grows s' := by
  cases a with
  | pause paused => exact absurd rfl (ha paused)
  | put x =>
    cases hr : s.writer.refuses x.1 with
    | true =>
      have hput : s.writer.put x =
          some ({ s.writer with droppedDisk := s.writer.droppedDisk + 1 }, []) := if_pos hr
      rw [WriterSys.step, hput, Option.map_some, if_pos hr] at h
      cases h
      refine ⟨List.prefix_append .., le_rfl, fun _ => rfl, rfl, fun hopen => ?_⟩
      rw [Writer.refuses, hopen, Bool.and_false] at hr
      cases hr
    | false =>
      obtain ⟨w', xs, hput, he, -⟩ :=
        Writer.put_spec (H.capacity ▸ h1) (H.capacity ▸ H.bounded) hr
      rw [WriterSys.step, hput, Option.map_some, hr, if_neg Bool.false_ne_true] at h
      cases h
      have happend : (w'.append x).flushFailures = s.writer.flushFailures ∧
          (w'.append x).depthPaused = s.writer.depthPaused := by
        rw [he.same, Writer.append]
        split <;> exact ⟨rfl, rfl⟩
      exact ⟨List.prefix_append .., happend.1.ge, fun _ => rfl, happend.2, fun _ => rfl⟩
  | pop =>
    rw [WriterSys.step] at h
    split at h
    · cases h
    · split at h <;> cases h <;> exact ⟨List.prefix_rfl, le_rfl, fun _ => rfl, rfl, fun _ => rfl⟩
  | answer a now =>
    obtain ⟨batch, hf⟩ := Option.ne_none_iff_exists'.mp (enabled_of_step h)
    rw [WriterSys.step, hf] at h
    dsimp only at h
    split at h
    · obtain ⟨p, hp, rfl⟩ := Option.map_eq_some_iff.mp h
      obtain ⟨w', xs, htrim, he, -⟩ :=
        Writer.trim_spec (w := s.writer.giveBack batch) (Nat.le_refl _)
      rw [Writer.onBusy, Writer.requeue, htrim] at hp
      cases hp
      have hsame := he.same
      refine ⟨List.prefix_append .., ?_, fun _ => rfl, ?_, fun _ => rfl⟩
      · change s.writer.flushFailures ≤ w'.flushFailures
        rw [hsame]
        exact le_rfl
      · change w'.depthPaused = s.writer.depthPaused
        rw [hsame]
        rfl
    · next result hw =>
      split at h
      · next herr =>
        cases h
        have hwritten : (s.writer.onWritten result now).flushFailures = s.writer.flushFailures ∧
            (s.writer.onWritten result now).depthPaused = s.writer.depthPaused := by
          rw [Writer.onWritten, if_neg (not_not.mpr herr)]
          exact ⟨rfl, rfl⟩
        exact ⟨List.prefix_rfl, hwritten.1.ge, fun _ => rfl, hwritten.2, fun _ => rfl⟩
      · next herr =>
        cases h
        have hwritten : (s.writer.onWritten result now).flushFailures =
              s.writer.flushFailures + 1 ∧
            (s.writer.onWritten result now).depthPaused = s.writer.depthPaused := by
          rw [Writer.onWritten, if_pos herr]
          exact ⟨rfl, rfl⟩
        refine ⟨List.prefix_rfl, ?_, fun hs => ?_, hwritten.2, fun _ => rfl⟩
        · exact hwritten.1 ▸ Nat.le_succ _
        · exact absurd (hwritten.1.symm.trans hs) (Nat.succ_ne_self _)

theorem Accounted.pause (H : s.Accounted maxQueue) (paused : Bool) :
    Accounted maxQueue { s with writer := { s.writer with depthPaused := paused } } :=
  ⟨⟨H.rows, H.droppedDisk, H.dropped, H.lostRows, H.depthRows, H.otherRows, H.depthLane,
    H.otherLane⟩, H.capacity, H.bounded⟩

end WriterSys

/-! ## What the heartbeats report -/

section notes

variable {w : Writer ρ} {prev : ℕ × ℕ} {nowMs : Int} {free : Option Int} {paused : Bool}

theorem sum_stallNotes : ((stallNotes w nowMs).map BeatNote.dropped).sum = 0 ∧
    ((stallNotes w nowMs).map BeatNote.failures).sum = 0 := by
  unfold stallNotes
  split
  · exact ⟨rfl, rfl⟩
  · split <;> exact ⟨rfl, rfl⟩

/-- The notes report all that was dropped and all that failed since the ones before. -/
theorem sum_writerNotes (hd : prev.1 ≤ w.dropped) (hf : prev.2 ≤ w.flushFailures) :
    prev.1 + ((writerNotes w prev nowMs).1.map BeatNote.dropped).sum = w.dropped ∧
    prev.2 + ((writerNotes w prev nowMs).1.map BeatNote.failures).sum = w.flushFailures := by
  obtain ⟨hd', hf'⟩ := @sum_stallNotes _ w nowMs
  rw [writerNotes]
  dsimp only
  rw [List.map_append, List.sum_append, List.map_append, List.sum_append, hd', hf']
  split
  · rw [List.map_singleton, List.map_singleton, List.sum_singleton, List.sum_singleton]
    change prev.1 + (w.dropped - prev.1 + 0) = _ ∧ prev.2 + (w.flushFailures - prev.2 + 0) = _
    omega
  · rw [List.map_nil, List.map_nil, List.sum_nil]
    omega

theorem sum_diskNote : ((diskNote free paused).map BeatNote.dropped).sum = 0 ∧
    ((diskNote free paused).map BeatNote.failures).sum = 0 := by
  cases paused <;> exact ⟨rfl, rfl⟩

section status

variable {errors : List String} {silent : List MicroStream} {notes : List BeatNote}

theorem deriveStatus_of_errors (h : errors ≠ []) :
    deriveStatus errors silent notes = (.error, .errors errors) := if_pos h

theorem notes_deriveStatus (h : errors = []) :
    (deriveStatus errors silent notes).2.notes = notes := by
  rw [deriveStatus, if_neg (not_not.mpr h)]
  split
  · rfl
  · next hnot => exact (not_not.mp (not_or.mp hnot).2).symm

theorem nil_of_deriveStatus_ok (h : (deriveStatus errors silent notes).1 = .ok) :
    errors = [] ∧ notes = [] := by
  rw [deriveStatus] at h
  split at h
  · cases h
  · next herrors =>
    split at h
    · cases h
    · next hnot => exact ⟨not_not.mp herrors, not_not.mp (not_or.mp hnot).2⟩

end status

theorem shouldPauseDepth_eq : shouldPauseDepth free paused =
    Hysteresis.next pauseFreeBytes resumeFreeBytes paused free := by
  cases free <;> cases paused <;> rfl

end notes

namespace Collector

variable {s s' : Collector ρ} {sys₀ : WriterSys ρ} {maxQueue : ℕ}

/-- What the heartbeats have reported of a counter: all of it unless a task has died, and never more
than there was. -/
structure Told (errors : List String) (before reported now : ℕ) : Prop where
  exact : errors = [] → before + reported = now
  le : before + reported ≤ now

theorem Told.tick {errors : List String} {before reported last now new : ℕ}
    (H : Told errors before reported last) (hle : last ≤ now)
    (hnew : errors = [] → last + new = now) (hdead : errors ≠ [] → new = 0) :
    Told errors before (reported + new) now where
  exact h := by
    have h₁ := H.exact h
    have h₂ := hnew h
    omega
  le := by
    have h := H.le
    by_cases herrors : errors = []
    · have := hnew herrors
      omega
    · have := hdead herrors
      omega

theorem Told.died {errors : List String} {before reported now : ℕ}
    (H : Told errors before reported now) (e : String) :
    Told (errors ++ [e]) before reported now where
  exact h := absurd h (List.append_ne_nil_of_right_ne_nil _ (List.cons_ne_nil e []))
  le := H.le

/-- What holds in every run from `sys₀` on. -/
structure Watched (maxQueue : ℕ) (sys₀ : WriterSys ρ) (s : Collector ρ) : Prop where
  accounted : s.sys.Accounted maxQueue
  evicted : sys₀.evicted <+: s.sys.evicted
  dropped : Told s.errors sys₀.writer.dropped (s.beats.map Beat.dropped).sum s.prev.1
  failures : Told s.errors sys₀.writer.flushFailures (s.beats.map Beat.failures).sum s.prev.2
  dropped_le : s.prev.1 ≤ s.sys.writer.dropped
  failures_le : s.prev.2 ≤ s.sys.writer.flushFailures
  spared : s.sys.writer.flushFailures = sys₀.writer.flushFailures → s.sys.lost = sys₀.lost
  paused : s.sys.writer.depthPaused =
    (s.beats.map Beat.free).foldl (Hysteresis.next pauseFreeBytes resumeFreeBytes) false
  accepted : (∀ b ∈ s.beats, b.status = .ok) →
    s.sys.writer.depthPaused = false ∧ s.sys.refused = sys₀.refused
  clean : ∀ b ∈ s.beats, b.status = .ok → b.note.notes = []

theorem watched_start (H : sys₀.Accounted maxQueue) (hopen : sys₀.writer.depthPaused = false)
    (startedMs : Int) : (start sys₀ startedMs).Watched maxQueue sys₀ where
  accounted := H
  evicted := List.prefix_rfl
  dropped := ⟨fun _ => rfl, le_rfl⟩
  failures := ⟨fun _ => rfl, le_rfl⟩
  dropped_le := le_rfl
  failures_le := le_rfl
  spared _ := rfl
  paused := hopen
  accepted _ := ⟨hopen, rfl⟩
  clean _ hb := nomatch hb

/-- The writer goes on. -/
theorem Watched.grow (H : s.Watched maxQueue sys₀) {sys : WriterSys ρ} (hg : s.sys.Grows sys)
    (hacc : sys.Accounted maxQueue) : Watched maxQueue sys₀ { s with sys } where
  accounted := hacc
  evicted := H.evicted.trans hg.evicted
  dropped := H.dropped
  failures := H.failures
  dropped_le := by
    have hlen := hg.evicted.length_le
    rw [← H.accounted.dropped, ← hacc.dropped] at hlen
    exact H.dropped_le.trans hlen
  failures_le := H.failures_le.trans hg.failures
  spared hs := by
    have h₁ := H.failures_le
    have h₂ := hg.failures
    have h₃ := H.failures.le
    have hs' : sys.writer.flushFailures = sys₀.writer.flushFailures := hs
    rw [hg.spared (by omega), H.spared (by omega)]
  paused := hg.paused.trans H.paused
  accepted hok := by
    obtain ⟨hopen, href⟩ := H.accepted hok
    exact ⟨hg.paused.trans hopen, (hg.accepted hopen).trans href⟩
  clean := H.clean

/-- A heartbeat reports what has happened since the one before, unless a task has died. -/
theorem Watched.tick (H : s.Watched maxQueue sys₀) (free : Option Int) (nowMs : Int) :
    (s.tick free nowMs).Watched maxQueue sys₀ := by
  set paused := shouldPauseDepth free s.sys.writer.depthPaused with hpaused
  set w := { s.sys.writer with depthPaused := paused } with hw
  obtain ⟨hdropped, hfailures⟩ :=
    @sum_writerNotes _ w _ nowMs H.dropped_le H.failures_le
  obtain ⟨hdisk, hdisk'⟩ := @sum_diskNote free paused
  set notes := (writerNotes w s.prev nowMs).1 ++ diskNote free paused with hnotes
  set derived := deriveStatus s.errors (silentStreams s.lastMsgMs nowMs s.startedMs) notes
    with hderived
  obtain ⟨beat, hbeat⟩ : ∃ beat : Beat, beat = ⟨nowMs, free, derived.1, derived.2⟩ := ⟨_, rfl⟩
  have hbeats : (s.tick free nowMs).beats = s.beats ++ [beat] := hbeat ▸ rfl
  have halive : s.errors = [] → beat.note.notes = notes := fun h => by
    rw [hbeat]
    exact notes_deriveStatus h
  have hdead : s.errors ≠ [] → beat.note.notes = [] := fun h => by
    rw [hbeat, hderived, deriveStatus_of_errors h]
    rfl
  have hclean : beat.status = .ok → s.errors = [] ∧ notes = [] := fun h => by
    rw [hbeat] at h
    exact nil_of_deriveStatus_ok h
  refine ⟨H.accounted.pause _, H.evicted, ?_, ?_, le_rfl, le_rfl, H.spared, ?_, fun hok => ?_,
    fun b hb hok => ?_⟩
  · change Told s.errors _ _ w.dropped
    rw [hbeats, List.map_append, List.sum_append, List.map_singleton, List.sum_singleton]
    refine H.dropped.tick H.dropped_le (fun h => ?_) fun h => ?_
    · rw [Beat.dropped, halive h, hnotes, List.map_append, List.sum_append, hdisk]
      exact hdropped
    · rw [Beat.dropped, hdead h]
      rfl
  · change Told s.errors _ _ w.flushFailures
    rw [hbeats, List.map_append, List.sum_append, List.map_singleton, List.sum_singleton]
    refine H.failures.tick H.failures_le (fun h => ?_) fun h => ?_
    · rw [Beat.failures, halive h, hnotes, List.map_append, List.sum_append, hdisk']
      exact hfailures
    · rw [Beat.failures, hdead h]
      rfl
  · change paused = _
    rw [hbeats, List.map_append, List.foldl_append, ← H.paused, hpaused, shouldPauseDepth_eq, hbeat]
    rfl
  · rw [hbeats] at hok
    have hlast := hok _ (List.mem_append_right _ (List.mem_singleton_self _))
    have hnil := List.append_eq_nil_iff.mp (hclean hlast).2
    refine ⟨?_, (H.accepted fun b hb => hok b (List.mem_append_left _ hb)).2⟩
    change paused = false
    cases hp : paused with
    | false => rfl
    | true =>
      have hnil : diskNote free paused = [] := hnil.2
      rw [hp] at hnil
      cases hnil
  · rw [hbeats] at hb
    rcases List.mem_append.mp hb with hb | hb
    · exact H.clean b hb hok
    · rw [List.mem_singleton.mp hb] at hok ⊢
      obtain ⟨herrors, hnil⟩ := hclean hok
      exact (halive herrors).trans hnil

theorem Watched.step (H : s.Watched maxQueue sys₀) (h1 : 1 ≤ maxQueue) {a : CollectorAct ρ}
    (h : s.step a = some s') : s'.Watched maxQueue sys₀ := by
  cases a with
  | writer a =>
    have hpause : ∀ paused, a ≠ .pause paused := by
      rintro paused rfl
      cases h
    have h' : (s.sys.step a).map (fun sys => { s with sys }) = some s' := by
      cases a with
      | pause paused => cases h
      | _ => exact h
    obtain ⟨sys, hsys, rfl⟩ := Option.map_eq_some_iff.mp h'
    obtain ⟨sys', hsys', hacc⟩ := H.accounted.step h1 (WriterSys.enabled_of_step hsys)
    cases hsys.symm.trans hsys'
    exact H.grow (H.accounted.grows h1 hpause hsys) hacc
  | message name nowMs =>
    cases h
    exact ⟨H.accounted, H.evicted, H.dropped, H.failures, H.dropped_le, H.failures_le, H.spared,
      H.paused, H.accepted, H.clean⟩
  | died e =>
    cases h
    exact ⟨H.accounted, H.evicted, H.dropped.died e, H.failures.died e, H.dropped_le,
      H.failures_le, H.spared, H.paused, H.accepted, H.clean⟩
  | tick free nowMs =>
    cases h
    exact H.tick free nowMs

/-- Right after a heartbeat: if no task has died, all heartbeats together have reported each row
that was dropped and each flush that failed since the start; if one has, this heartbeat names the
dead tasks and nothing else, so that there may be more of both than was reported, but not fewer. The
rows of `depth_1s` are paused exactly if the last deciding reading of the disk was low; and if each
heartbeat was `ok`, no row was lost in any way. -/
theorem reported (h1 : 1 ≤ maxQueue) {acts₀ : List (WriterAct ρ)}
    (h₀ : (WriterSys.init maxQueue).run acts₀ = some sys₀)
    (hopen : sys₀.writer.depthPaused = false) {startedMs nowMs : Int} {free : Option Int}
    {acts : List (CollectorAct ρ)}
    (h : (start sys₀ startedMs).run (acts ++ [.tick free nowMs]) = some s) :
    Told s.errors sys₀.evicted.length (s.beats.map Beat.dropped).sum s.sys.evicted.length ∧
    Told s.errors sys₀.writer.flushFailures (s.beats.map Beat.failures).sum
      s.sys.writer.flushFailures ∧
    (s.errors ≠ [] → ∃ b ∈ s.beats.getLast?, b.status = .error ∧ b.note = .errors s.errors) ∧
    (s.sys.writer.depthPaused = true ↔
      Hysteresis.Low pauseFreeBytes resumeFreeBytes (s.beats.map Beat.free)) ∧
    ((∀ b ∈ s.beats, b.status = .ok) → s.sys.evicted = sys₀.evicted ∧ s.sys.lost = sys₀.lost ∧
      s.sys.refused = sys₀.refused) := by
  have H₀ := (WriterSys.rows_accounted h1 h₀).1
  have H : s.Watched maxQueue sys₀ :=
    Trace.invariant (fun _ _ _ H ha => H.step h1 ha) (watched_start H₀ hopen startedMs) h
  -- the last act is a heartbeat, so its counters are those of now
  obtain ⟨s₁, -, hlast⟩ := Trace.exists_of_run_snoc h
  have hprev : s.prev = (s.sys.writer.dropped, s.sys.writer.flushFailures) := by
    cases hlast
    rfl
  have hevicted : Told s.errors sys₀.evicted.length (s.beats.map Beat.dropped).sum
      s.sys.evicted.length := by
    have h := H.dropped
    rw [hprev, H₀.dropped, H.accounted.dropped] at h
    exact h
  have hfailures : Told s.errors sys₀.writer.flushFailures (s.beats.map Beat.failures).sum
      s.sys.writer.flushFailures := by
    have h := H.failures
    rw [hprev] at h
    exact h
  have hlastBeat : ∃ b ∈ s.beats.getLast?, (b.status, b.note) =
      deriveStatus s.errors (silentStreams s₁.lastMsgMs nowMs s₁.startedMs)
        ((writerNotes { s₁.sys.writer with
            depthPaused := shouldPauseDepth free s₁.sys.writer.depthPaused } s₁.prev nowMs).1 ++
          diskNote free (shouldPauseDepth free s₁.sys.writer.depthPaused)) := by
    cases hlast
    exact ⟨_, List.getLast?_concat, rfl⟩
  obtain ⟨b, hb, hderived⟩ := hlastBeat
  refine ⟨hevicted, hfailures, fun herrors => ⟨b, hb, ?_⟩, ?_, fun hok => ?_⟩
  · rw [deriveStatus_of_errors herrors] at hderived
    exact Prod.mk.inj hderived
  · rw [H.paused]
    exact Hysteresis.on_iff (by decide)
  · have hbok : b.status = .ok := hok b (List.mem_of_getLast? hb)
    have herrors : s.errors = [] :=
      (nil_of_deriveStatus_ok ((congrArg Prod.fst hderived).symm.trans hbok)).1
    refine ⟨(H.evicted.eq_of_length ?_).symm, H.spared ?_, (H.accepted hok).2⟩
    · rw [← hevicted.exact herrors, List.sum_eq_zero, Nat.add_zero]
      rintro n hn
      obtain ⟨b, hb, rfl⟩ := List.mem_map.mp hn
      rw [Beat.dropped, H.clean b hb (hok b hb)]
      rfl
    · rw [← hfailures.exact herrors, List.sum_eq_zero, Nat.add_zero]
      rintro n hn
      obtain ⟨b, hb, rfl⟩ := List.mem_map.mp hn
      rw [Beat.failures, H.clean b hb (hok b hb)]
      rfl

/-- The disk fills up, a flush fails, and a queue for two overflows. -/
def lossyActs : List (CollectorAct ℕ) := [
  .message .binanceDepth 1000, .tick (some 9_000_000_000) 2000, .writer (.put (.depth1s, 1)),
  .writer (.put (.liquidations, 2)), .writer (.put (.liquidations, 3)), .writer .pop,
  .writer (.answer (.failed "OperationalError" "'disk full'") 2500),
  .tick (some 4_000_000_000) 3000, .writer (.put (.depth1s, 4))]

theorem reported_lossyActs : ∃ s : Collector ℕ,
    (start (.init 2) 0).run (lossyActs ++ [.tick none 4000]) = some s ∧
    s.beats.map (fun b => (b.status, b.note)) = [(.ok, .none),
      (.degraded, .parts [] [.writer 1 1 "OperationalError('disk full')",
        .diskLow (some 4_000_000_000)]),
      (.degraded, .parts [] [.diskLow none])] ∧
    s.errors = [] ∧ 0 + (s.beats.map Beat.dropped).sum = s.sys.evicted.length := by
  have hrun : ((start (.init 2 : WriterSys ℕ) 0).run (lossyActs ++ [.tick none 4000])).map
      (fun s => (s.beats.map fun b => (b.status, b.note), s.errors)) = some ([(.ok, .none),
        (.degraded, .parts [] [.writer 1 1 "OperationalError('disk full')",
          .diskLow (some 4_000_000_000)]),
        (.degraded, .parts [] [.diskLow none])], []) := by
    decide +kernel
  obtain ⟨s, hs, hvalue⟩ := Option.map_eq_some_iff.mp hrun
  obtain ⟨hbeats, herrors⟩ := Prod.mk.inj hvalue
  have h₀ : (WriterSys.init 2 : WriterSys ℕ).run [] = some (.init 2) := rfl
  exact ⟨s, hs, hbeats, herrors, (reported (by decide) h₀ rfl hs).1.exact herrors⟩

end Collector

end P300
