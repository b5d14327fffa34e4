import Mathlib.Algebra.Order.Round
import Mathlib.Data.List.Chain
import Mathlib.Data.Rat.Floor
import Mathlib.Tactic.Linarith
import P300.Lib.Grid
import P300.Lib.Trace

/-!
# The grid of the polls

`hyperliquid.poll_ctx`: a poll keys its rows to the grid of its interval and sleeps to the next
point of the grid, not for the interval. The keys never repeat, and none is left out while each
poll is over before the next one is due.
-/

namespace P300

/-- `BOUNDARY_MARGIN_S` -/
def boundaryMarginS : ℚ := 2 / 100

/-- The grid is never finer than a second; the intervals are whole seconds. -/
def gridMs (intervalS : ℕ) : Int := max 1000 (intervalS * 1000)

/-- `_bucket_ms` -/
def bucketMs (nowMs : Int) (intervalS : ℕ) : Int := nowMs - nowMs % gridMs intervalS

/-- `next_boundary_s` -/
def nextBoundaryS (nowS : ℚ) (intervalS : ℕ) : ℚ :=
  let step : ℚ := max 1 intervalS
  (⌊nowS / step⌋ + 1) * step

/-- What `_sleep_to_boundary` returns. -/
def boundaryMs (nowS : ℚ) (intervalS : ℕ) : Int := round (nextBoundaryS nowS intervalS * 1000)

/-- A poll that is over. -/
structure CtxPoll where
  /-- `ts_ms` of its rows -/
  key : Int
  start : ℚ
  finish : ℚ
  ok : Bool

inductive PollPc
  /-- At the head of the loop, with `bucket_ms`. -/
  | ready (bucketMs : Int)
  | polling (bucketMs : Int) (start : ℚ)
  | sleeping (bucketMs : Int) (wake : ℚ)
  | stopped

structure CtxPoller where
  clock : ℚ
  stop : Bool := false
  pc : PollPc
  polls : List CtxPoll := []

inductive PollAct
  | elapse (dt : ℚ)
  | setStop
  | proceed
  /-- The request is answered and the rows are put, or it fails. -/
  | answer (ok : Bool)

namespace CtxPoller

variable (intervalS : ℕ) (s : CtxPoller)

def init (clock : ℚ) : CtxPoller :=
  { clock, pc := .ready (bucketMs ⌊clock * 1000⌋ intervalS) }

def step : PollAct → Option CtxPoller
  | .elapse dt => if 0 ≤ dt then some { s with clock := s.clock + dt } else none
  | .setStop => some { s with stop := true }
  | .proceed =>
    match s.pc with
    | .ready key => some { s with pc := if s.stop then .stopped else .polling key s.clock }
    | .sleeping key wake =>
      if s.stop then some { s with pc := .stopped }
      else if wake ≤ s.clock then some { s with pc := .ready key }
      else none
    | _ => none
  | .answer ok =>
    match s.pc with
    | .polling key start =>
      let boundary := boundaryMs s.clock intervalS
      let wake := nextBoundaryS s.clock intervalS + boundaryMarginS
      some { s with
        polls := s.polls ++ [{ key, start, finish := s.clock, ok }], pc := .sleeping boundary wake }
    | _ => none

def run (acts : List PollAct) : Option CtxPoller := Trace.run (step intervalS) s acts

end CtxPoller

/-! ## The grid -/

section grid

variable {intervalS : ℕ} {t : ℚ}

theorem gridMs_pos : 0 < gridMs intervalS :=
  lt_of_lt_of_le (by decide) (le_max_left ..)

theorem gridMs_eq : (gridMs intervalS : ℚ) = max 1 (intervalS : ℚ) * 1000 := by
  rw [gridMs, max_mul_of_nonneg _ _ (by norm_num)]
  push_cast
  rw [one_mul]

theorem bucketMs_eq (nowMs : Int) :
    bucketMs nowMs intervalS = Grid.floor (gridMs intervalS) nowMs := by
  have h := Int.emod_add_mul_ediv nowMs (gridMs intervalS)
  rw [bucketMs, Grid.floor, mul_comm]
  omega

theorem nextBoundaryS_eq : nextBoundaryS t intervalS * 1000 =
    (((⌊t / max 1 (intervalS : ℚ)⌋ + 1) * gridMs intervalS : Int) : ℚ) := by
  rw [nextBoundaryS]
  push_cast
  rw [gridMs_eq]
  ring

theorem boundaryMs_cast : (boundaryMs t intervalS : ℚ) = nextBoundaryS t intervalS * 1000 := by
  rw [boundaryMs, nextBoundaryS_eq, round_intCast]

theorem dvd_boundaryMs : gridMs intervalS ∣ boundaryMs t intervalS := by
  have h : (boundaryMs t intervalS : ℚ) = _ := boundaryMs_cast.trans nextBoundaryS_eq
  rw [Int.cast_inj] at h
  rw [h]
  exact Int.dvd_mul_left ..

/-- The next point of the grid is later, by no more than the interval. -/
theorem lt_boundaryMs : t * 1000 < boundaryMs t intervalS ∧
    (boundaryMs t intervalS : ℚ) ≤ t * 1000 + gridMs intervalS := by
  have hstep : (0 : ℚ) < max 1 (intervalS : ℚ) := lt_of_lt_of_le one_pos (le_max_left ..)
  have hle := Int.floor_le (t / max 1 (intervalS : ℚ))
  have hlt := Int.lt_floor_add_one (t / max 1 (intervalS : ℚ))
  rw [le_div_iff₀ hstep] at hle
  rw [div_lt_iff₀ hstep] at hlt
  rw [boundaryMs_cast, nextBoundaryS, gridMs_eq]
  constructor <;> linarith

/-- The next point after a time in the cell of a key or later. -/
theorem boundaryMs_eq_iff {key : Int} (hkey : gridMs intervalS ∣ key) (h : (key : ℚ) ≤ t * 1000) :
    boundaryMs t intervalS = key + gridMs intervalS ↔ t * 1000 < key + gridMs intervalS := by
  obtain ⟨hlt, hle⟩ := @lt_boundaryMs intervalS t
  constructor
  · intro heq
    rw [heq] at hlt
    push_cast at hlt
    exact hlt
  · intro hnext
    obtain ⟨q, hq⟩ := @dvd_boundaryMs intervalS t
    obtain ⟨k, rfl⟩ := hkey
    have hpos := @gridMs_pos intervalS
    have hlow : gridMs intervalS * k < gridMs intervalS * q := by
      rw [← hq]
      exact_mod_cast lt_of_le_of_lt h hlt
    have hhigh : gridMs intervalS * q < gridMs intervalS * k + 2 * gridMs intervalS := by
      rw [← hq]
      have hr : (boundaryMs t intervalS : ℚ)
          < (gridMs intervalS * k : Int) + 2 * gridMs intervalS := by
        linarith
      exact_mod_cast hr
    have hkq : q = k + 1 := by
      have h₁ := lt_of_mul_lt_mul_left hlow hpos.le
      have h₂ : gridMs intervalS * q < gridMs intervalS * (k + 2) := by linarith
      have h₃ := lt_of_mul_lt_mul_left h₂ hpos.le
      omega
    rw [hq, hkq]
    ring

end grid

/-! ## Runs -/

/-- The key of the poll that is next or under way. -/
def PollPc.key? : PollPc → Option Int
  | .ready key | .polling key _ | .sleeping key _ => some key
  | .stopped => none

namespace CtxPoller

variable {intervalS : ℕ} {s s' : CtxPoller}

/-- What holds in every run. -/
structure Gridded (intervalS : ℕ) (s : CtxPoller) : Prop where
  polls : ∀ p ∈ s.polls, gridMs intervalS ∣ p.key ∧ (p.key : ℚ) ≤ p.start * 1000 ∧
    p.start ≤ p.finish
  chain : s.polls.IsChain fun p p' => p'.key = boundaryMs p.finish intervalS
  next : ∀ key, s.pc.key? = some key → gridMs intervalS ∣ key ∧
    ∀ p ∈ s.polls.getLast?, key = boundaryMs p.finish intervalS
  ready : ∀ key, s.pc = .ready key → (key : ℚ) ≤ s.clock * 1000
  polling : ∀ key start, s.pc = .polling key start → (key : ℚ) ≤ start * 1000 ∧ start ≤ s.clock
  sleeping : ∀ key wake, s.pc = .sleeping key wake → (key : ℚ) ≤ wake * 1000

theorem gridded_init (clock : ℚ) : (init intervalS clock).Gridded intervalS where
  polls _ hp := nomatch hp
  chain := .nil
  next key hkey := by
    cases hkey
    rw [bucketMs_eq]
    exact ⟨Grid.dvd_floor .., fun _ hp => nomatch hp⟩
  ready key hkey := by
    cases hkey
    rw [bucketMs_eq]
    refine le_trans ?_ (Int.floor_le (clock * 1000))
    exact_mod_cast Grid.floor_le gridMs_pos _
  polling _ _ h := by cases h
  sleeping _ _ h := by cases h

theorem gridded_stopped (H : s.Gridded intervalS) :
    Gridded intervalS { s with pc := .stopped } where
  polls := H.polls
  chain := H.chain
  next _ hkey := by cases hkey
  ready _ h := by cases h
  polling _ _ h := by cases h
  sleeping _ _ h := by cases h

theorem Gridded.proceed (H : s.Gridded intervalS) (h : s.step intervalS .proceed = some s') :
    s'.Gridded intervalS := by
  rw [step] at h
  split at h
  · next key hpc =>
    cases h
    split
    · exact gridded_stopped H
    · exact ⟨H.polls, H.chain, fun k hk => H.next k (by rw [hpc]; exact hk),
        fun _ h => (by cases h), fun k t hk => (by cases hk; exact ⟨H.ready key hpc, le_rfl⟩),
        fun _ _ h => (by cases h)⟩
  · next key wake hpc =>
    split at h
    · cases h
      exact gridded_stopped H
    · obtain ⟨hwake, h⟩ := Option.ite_none_right_eq_some.mp h
      cases h
      refine ⟨H.polls, H.chain, fun k hk => H.next k (by rw [hpc]; exact hk), fun k hk => ?_,
        fun _ _ h => (by cases h), fun _ _ h => (by cases h)⟩
      cases hk
      have hkey := H.sleeping key wake hpc
      change (key : ℚ) ≤ s.clock * 1000
      linarith
  · cases h

/-- A poll is over. -/
theorem Gridded.answer (H : s.Gridded intervalS) {ok : Bool}
    (h : s.step intervalS (.answer ok) = some s') : s'.Gridded intervalS := by
  rw [step] at h
  split at h
  · next key start hpc =>
    cases h
    obtain ⟨hdvd, hlast⟩ := H.next key (by rw [hpc]; rfl)
    obtain ⟨hkey, hstart⟩ := H.polling key start hpc
    refine ⟨fun p hp => ?_, ?_, fun k hk => ?_, fun _ h => (by cases h), fun _ _ h => (by cases h),
      fun k wake hk => ?_⟩
    · rcases List.mem_append.mp hp with hp | hp
      · exact H.polls p hp
      · cases List.mem_singleton.mp hp
        exact ⟨hdvd, hkey, hstart⟩
    · refine List.isChain_append.mpr ⟨H.chain, .singleton _, fun p hp p' hp' => ?_⟩
      cases hp'
      exact hlast p hp
    · cases hk
      refine ⟨dvd_boundaryMs, fun p hp => ?_⟩
      rw [List.getLast?_concat, Option.mem_some_iff] at hp
      rw [← hp]
    · cases hk
      rw [boundaryMs_cast, boundaryMarginS]
      linarith
  · cases h

theorem Gridded.step (H : s.Gridded intervalS) {a : PollAct} (h : s.step intervalS a = some s') :
    s'.Gridded intervalS := by
  cases a with
  | elapse dt =>
    obtain ⟨hdt, h⟩ := Option.ite_none_right_eq_some.mp h
    cases h
    refine ⟨H.polls, H.chain, H.next, fun key hkey => ?_, fun key t hkey => ?_, H.sleeping⟩
    · have hready := H.ready key hkey
      change (key : ℚ) ≤ (s.clock + dt) * 1000
      linarith
    · exact (H.polling key t hkey).imp_right fun hle => hle.trans (le_add_of_nonneg_right hdt)
  | setStop =>
    cases h
    exact ⟨H.polls, H.chain, H.next, H.ready, H.polling, H.sleeping⟩
  | proceed => exact H.proceed h
  | answer ok => exact H.answer h

/-- In every run whose wall clock is not set back the keys of the polls are points of the grid that
only increase, none of them ahead of its request; and the next key is the next point of the grid
exactly if the poll is over before that point. -/
theorem gridded {clock : ℚ} {acts : List PollAct}
    (h : (init intervalS clock).run intervalS acts = some s) :
    (∀ p ∈ s.polls, gridMs intervalS ∣ p.key ∧ (p.key : ℚ) ≤ p.start * 1000) ∧
    s.polls.Pairwise (fun p p' => p.key < p'.key) ∧
    s.polls.IsChain fun p p' => p'.key = p.key + gridMs intervalS ↔
      p.finish * 1000 < (p.key : ℚ) + gridMs intervalS := by
  have H : s.Gridded intervalS :=
    Trace.invariant (fun _ _ _ H ha => H.step ha) (gridded_init clock) h
  have hfinish : ∀ p ∈ s.polls, (p.key : ℚ) ≤ p.finish * 1000 := by
    intro p hp
    obtain ⟨-, hkey, hle⟩ := H.polls p hp
    linarith
  have hnext : s.polls.IsChain fun p p' => p.key < p'.key ∧
      (p'.key = p.key + gridMs intervalS ↔
        p.finish * 1000 < (p.key : ℚ) + gridMs intervalS) := by
    refine List.isChain_iff_forall_rel_of_append_cons_cons.mpr fun p p' l l' heq => ?_
    have hp : p ∈ s.polls := by
      rw [heq]
      exact List.mem_append_right _ List.mem_cons_self
    rw [List.isChain_iff_forall_rel_of_append_cons_cons.mp H.chain heq]
    refine ⟨?_, boundaryMs_eq_iff (H.polls p hp).1 (hfinish p hp)⟩
    exact_mod_cast lt_of_le_of_lt (hfinish p hp) lt_boundaryMs.1
  refine ⟨fun p hp => ?_, ?_, hnext.imp fun _ _ h => h.2⟩
  · exact ⟨(H.polls p hp).1, (H.polls p hp).2.1⟩
  · have htrans : Trans (fun p p' : CtxPoll => p.key < p'.key)
        (fun p p' : CtxPoll => p.key < p'.key) (fun p p' : CtxPoll => p.key < p'.key) :=
      ⟨fun h h' => lt_trans h h'⟩
    exact List.isChain_iff_pairwise.mp (hnext.imp fun _ _ h => h.1)

/-- A poll within its minute, and one that takes more than a minute. -/
def slowPoll : List PollAct := [
  .proceed, .elapse 1, .answer true, .elapse 60, .proceed, .proceed, .elapse 70, .answer false,
  .elapse 60, .proceed, .proceed, .answer true]

theorem gridded_slowPoll : ∃ s, (init 60 90).run 60 slowPoll = some s ∧
    s.polls.map (·.key) = [60000, 120000, 240000] ∧
    s.polls.Pairwise fun p p' => p.key < p'.key := by
  have hrun : ((init 60 90).run 60 slowPoll).map (fun s => s.polls.map (·.key)) =
      some [60000, 120000, 240000] := by
    decide +kernel
  obtain ⟨s, hs, hkeys⟩ := Option.map_eq_some_iff.mp hrun
  exact ⟨s, hs, hkeys, (gridded hs).2.1⟩

end CtxPoller

end P300
