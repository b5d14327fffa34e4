import Mathlib.Tactic.NormNum
import P300.Micro.Resync

/-!
# Requests keep their distance

A pass stamps its requests with the clock's reading at its begin, and a request that waits for the
requests before it starts later than its stamp. The stamps of a symbol keep the distance that the
code asks for; the requests keep it unless one is held up in its pass for longer than the next one
is in its own.
-/

namespace P300

open DepthHandler

/-- How long after the reading of its pass a request starts. -/
def SnapshotRequest.heldUp (r : SnapshotRequest) : ℚ := r.start - r.reading

/-- The reading and the symbols ahead, in a pass. -/
def LoopPc.pass? : LoopPc → Option (ℚ × List String)
  | .sleeping => none
  | .passing now rest | .requesting now _ rest | .returned now rest => some (now, rest)

namespace ResyncSys

/-- What holds in every run. -/
structure Stamped (s : ResyncSys) : Prop where
  started : ∀ r ∈ s.requests, r.hold ≤ r.start ∧ r.reading ≤ r.start ∧ r.start ≤ s.clock
  last : ∀ x, s.handler.lastSnapshotAt.get? x = (s.requestsOf x).getLast?.map (·.reading)
  apart : ∀ x, (s.requestsOf x).IsChain fun r r' => r'.gap ≤ r'.reading - r.reading ∧
    r.start ≤ r'.reading
  pass : ∀ now rest, s.pc.pass? = some (now, rest) →
    now ≤ s.clock ∧ rest.Nodup ∧ ∀ r ∈ s.requests, r.symbol ∈ rest → r.start ≤ now
  hold : ∀ now rest, s.pc = .passing now rest → s.handler.holdUntil ≤ s.clock

variable {s s' : ResyncSys}

/-- What the steps other than a request and a change of place leave as it is. -/
theorem Stamped.of_eq (H : Stamped s) (hclock : s.clock ≤ s'.clock)
    (hreq : s'.requests = s.requests) (hlast : s'.handler.lastSnapshotAt = s.handler.lastSnapshotAt)
    (hpass : ∀ now rest, s'.pc.pass? = some (now, rest) →
      now ≤ s'.clock ∧ rest.Nodup ∧ ∀ r ∈ s.requests, r.symbol ∈ rest → r.start ≤ now)
    (hhold : ∀ now rest, s'.pc = .passing now rest → s'.handler.holdUntil ≤ s'.clock) :
    Stamped s' := by
  have hof : ∀ x, s'.requestsOf x = s.requestsOf x := fun x => by rw [requestsOf, hreq, requestsOf]
  refine ⟨fun r hr => ?_, fun x => ?_, fun x => ?_, ?_, hhold⟩
  · obtain ⟨h₁, h₂, h₃⟩ := H.started r (hreq ▸ hr)
    exact ⟨h₁, h₂, h₃.trans hclock⟩
  · rw [hlast, hof]
    exact H.last x
  · rw [hof]
    exact H.apart x
  · rw [hreq]
    exact hpass

/-- The handler does not stamp a symbol outside of the loop. -/
theorem Stamped.setHandler (H : Stamped s) {h : DepthHandler}
    (hlast : h.lastSnapshotAt = s.handler.lastSnapshotAt) (hpc : s.Awaiting) :
    Stamped { s with handler := h } := by
  refine H.of_eq le_rfl rfl hlast H.pass fun now rest hpass => ?_
  rw [Awaiting, show s.pc = .passing now rest from hpass] at hpc
  exact hpc.elim

theorem lastSnapshotAt_onDisconnect (h : DepthHandler) :
    h.onDisconnect.lastSnapshotAt = h.lastSnapshotAt := by
  rw [onDisconnect]
  split <;> rfl

theorem lastSnapshotAt_onMessage (h : DepthHandler) (symbol : String) (ev : DepthEvent)
    (nowMs : Int) :
    (h.onMessage symbol ev nowMs).lastSnapshotAt = h.lastSnapshotAt := by
  rw [onMessage]
  split <;> rfl

theorem lastSnapshotAt_resyncOnce (h : DepthHandler) (symbol : String) (clock : ℚ) (nowMs : Int)
    (a : SnapshotAnswer) : (h.resyncOnce symbol clock nowMs a).lastSnapshotAt =
      h.lastSnapshotAt := by
  cases a with
  | rateLimited => rfl
  | failed => rfl
  | body snap =>
    rw [resyncOnce]
    split
    · dsimp only
      split
      · rfl
      · split <;> rfl
    · rfl

/-- A request is stamped with the reading of its pass. -/
theorem Stamped.request (H : Stamped s) {now : ℚ} {symbol : String} {rest : List String}
    (hpc : s.pc = .passing now (symbol :: rest)) (hdue : s.handler.Due symbol now) :
    (s.request now symbol rest).Stamped := by
  obtain ⟨hnow, hnodup, hearlier⟩ := H.pass now (symbol :: rest) (by rw [hpc]; rfl)
  have hhold := H.hold now (symbol :: rest) hpc
  set r : SnapshotRequest :=
    ⟨symbol, now, s.clock, s.handler.snapshotGapS symbol, s.handler.holdUntil⟩
  have hself : ∀ l : List SnapshotRequest, ((l ++ [r]).filter fun r => r.symbol = symbol) =
      (l.filter fun r => r.symbol = symbol) ++ [r] := fun l => by simp [r]
  have hother : ∀ x ≠ symbol, ∀ l : List SnapshotRequest,
      ((l ++ [r]).filter fun r => r.symbol = x) =
      l.filter fun r => r.symbol = x := fun x hx l => by simp [r, hx.symm]
  refine ⟨fun q hq => ?_, fun x => ?_, fun x => ?_, fun t l hpass => ?_,
    fun t l hpass => by cases hpass⟩
  · rcases List.mem_append.mp hq with hq | hq
    · exact H.started q hq
    · rw [List.mem_singleton.mp hq]
      exact ⟨hhold, hnow, le_rfl⟩
  · change (s.handler.lastSnapshotAt.set symbol now).get? x =
      ((s.requests ++ [r]).filter _).getLast?.map _
    rw [Dict.get?_set]
    by_cases hx : x = symbol
    · subst hx
      rw [if_pos rfl, hself, List.getLast?_concat]
      rfl
    · rw [if_neg hx, hother x hx]
      exact H.last x
  · change ((s.requests ++ [r]).filter fun r => r.symbol = x).IsChain _
    by_cases hx : x = symbol
    · subst hx
      rw [hself]
      refine List.isChain_append.mpr ⟨H.apart x, .singleton _, fun q hq r' hr' => ?_⟩
      cases hr'
      -- the last request for the symbol has the last stamp
      have hlast := H.last x
      rw [show (s.requestsOf x).getLast? = some q from hq, Option.map_some] at hlast
      refine ⟨?_, hearlier q (List.mem_of_mem_filter (List.mem_of_getLast? hq)) ?_⟩
      · have hgap := hdue.2.2
        rw [hlast, Option.getD_some] at hgap
        exact not_lt.mp hgap
      · have hsym := List.of_mem_filter (List.mem_of_getLast? hq)
        rw [of_decide_eq_true hsym]
        exact List.mem_cons_self
    · rw [hother x hx]
      exact H.apart x
  · cases hpass
    refine ⟨hnow, hnodup.of_cons, fun q hq hmem => ?_⟩
    rcases List.mem_append.mp hq with hq | hq
    · exact hearlier q hq (List.mem_cons_of_mem _ hmem)
    · rw [List.mem_singleton.mp hq] at hmem
      exact absurd hmem (List.nodup_cons.mp hnodup).1

theorem Stamped.proceed (H : Stamped s) (h : s.proceed = some s') : Stamped s' := by
  rw [ResyncSys.proceed] at h
  split at h
  · split at h
    · cases h
    split at h
    · next hready =>
      cases h
      refine H.of_eq le_rfl rfl rfl (fun now rest hpass => ?_) fun now rest hpass => hready.2
      cases hpass
      exact ⟨le_rfl, s.handler.nodup, fun r hr _ => (H.started r hr).2.2⟩
    · cases h
      exact H
  · cases h
    exact H.of_eq le_rfl rfl rfl (fun now rest hpass => by cases hpass) fun now rest hpass =>
      by cases hpass
  · next now symbol rest hpc =>
    split at h
    · next hdue =>
      cases h
      exact H.request hpc hdue
    · cases h
      obtain ⟨hnow, hnodup, hearlier⟩ := H.pass now (symbol :: rest) (by rw [hpc]; rfl)
      refine H.of_eq le_rfl rfl rfl (fun t l hpass => ?_) fun t l _ =>
        H.hold now (symbol :: rest) hpc
      cases hpass
      exact ⟨hnow, hnodup.of_cons, fun r hr hmem => hearlier r hr (List.mem_cons_of_mem _ hmem)⟩
  · cases h
  · next now rest hpc =>
    have hpass := H.pass now rest (by rw [hpc]; rfl)
    split at h
    · cases h
      exact H.of_eq le_rfl rfl rfl (fun t l hpass => by cases hpass) fun t l hpass => by cases hpass
    · next hready =>
      cases h
      refine H.of_eq le_rfl rfl rfl (fun t l h => ?_) fun _ _ _ => not_lt.mp hready
      cases h
      exact hpass

theorem Stamped.step (H : Stamped s) {act : ResyncAct} (h : s.step act = some s') : Stamped s' := by
  cases act with
  | proceed => exact H.proceed h
  | elapse dt =>
    obtain ⟨hdt, h⟩ := Option.ite_none_right_eq_some.mp h
    cases h
    have hle : s.clock ≤ s.clock + dt := le_add_of_nonneg_right hdt
    refine H.of_eq hle rfl rfl (fun now rest hpass => ?_) fun now rest hpass =>
      (H.hold now rest hpass).trans hle
    exact (H.pass now rest hpass).imp_left hle.trans'
  | connect =>
    obtain ⟨hpc, h⟩ := Option.ite_none_right_eq_some.mp h
    cases h
    exact H.setHandler rfl hpc
  | disconnect =>
    obtain ⟨hpc, h⟩ := Option.ite_none_right_eq_some.mp h
    cases h
    exact H.setHandler (lastSnapshotAt_onDisconnect _) hpc
  | message symbol ev nowMs =>
    obtain ⟨hpc, h⟩ := Option.ite_none_right_eq_some.mp h
    cases h
    exact H.setHandler (lastSnapshotAt_onMessage ..) hpc
  | setStop =>
    obtain ⟨_, h⟩ := Option.ite_none_right_eq_some.mp h
    cases h
    exact H.of_eq le_rfl rfl rfl H.pass H.hold
  | answer a nowMs =>
    rw [ResyncSys.step] at h
    split at h
    · next now symbol rest hpc =>
      cases h
      have hpass := H.pass now rest (by rw [hpc]; rfl)
      refine H.of_eq le_rfl rfl (lastSnapshotAt_resyncOnce ..)
        (fun t l h => ?_) fun t l h => by cases h
      cases h
      exact hpass
    · cases h

theorem Stamped.run {acts : List ResyncAct} (H : Stamped s) (h : s.run acts = some s') :
    Stamped s' := by
  induction acts generalizing s with
  | nil =>
    cases h
    exact H
  | cons act acts ih =>
    obtain ⟨s₁, h₁, h⟩ := Option.bind_eq_some_iff.mp h
    exact ih (H.step h₁) h

theorem stamped_init (symbols : List String) (nodup : symbols.Nodup) (minGapS clock : ℚ) :
    (init symbols nodup minGapS clock).Stamped := by
  refine ⟨fun r hr => ?_, fun x => rfl, fun x => .nil, fun now rest h => ?_, fun now rest h => ?_⟩
  · cases hr
  · cases h
  · cases h

/-! ## The budget -/

/-- No request starts before `hold_until`, and those of a symbol are the gap apart that is then in
force. -/
def Budget (s : ResyncSys) : Prop :=
  (∀ r ∈ s.requests, r.hold ≤ r.start) ∧
    ∀ x, (s.requestsOf x).IsChain fun r r' => r'.gap ≤ r'.start - r.start

/-- No request was held up in its pass for longer than the next one of its symbol is in its own, or
that one is held up for its whole gap. -/
def EvenlyHeldUp (s : ResyncSys) : Prop :=
  ∀ x, (s.requestsOf x).IsChain fun r r' => r.heldUp ≤ r'.heldUp ∨ r'.gap ≤ r'.heldUp

/-- Of two requests in a row, the later one keeps its gap if the two are evenly held up. -/
theorem Stamped.gap_le (H : Stamped s) {x : String} {l l' : List SnapshotRequest}
    {r r' : SnapshotRequest} (heq : s.requestsOf x = l ++ r :: r' :: l')
    (heven : r.heldUp ≤ r'.heldUp ∨ r'.gap ≤ r'.heldUp) :
    r'.gap ≤ r'.start - r.start := by
  obtain ⟨hgap, hearlier⟩ := List.isChain_iff_forall_rel_of_append_cons_cons.mp (H.apart x) heq
  rw [SnapshotRequest.heldUp, SnapshotRequest.heldUp] at heven
  rcases heven with hle | hle
  · linarith
  · linarith

/-- The budget is kept in every run in which the requests are evenly held up. -/
theorem budget_of_evenlyHeldUp {symbols : List String} (nodup : symbols.Nodup) {minGapS clock : ℚ}
    {acts : List ResyncAct} {s : ResyncSys}
    (h : (init symbols nodup minGapS clock).run acts = some s) (heven : s.EvenlyHeldUp) :
    s.Budget := by
  have H := (stamped_init symbols nodup minGapS clock).run h
  refine ⟨fun r hr => (H.started r hr).1, fun x => ?_⟩
  refine List.isChain_iff_forall_rel_of_append_cons_cons.mpr fun r r' l l' heq => H.gap_le heq ?_
  exact List.isChain_iff_forall_rel_of_append_cons_cons.mp (heven x) heq

/-- One symbol, whose first request fails after a second. -/
def oneFailure : List ResyncAct :=
  [.connect, .proceed, .proceed, .elapse 1, .answer .failed 0, .proceed, .proceed, .elapse 4,
    .proceed, .proceed]

theorem budget_of_evenlyHeldUp_oneFailure :
    ∃ s, (init ["ETHUSDT"] (by decide) 2 0).run oneFailure = some s ∧
    s.requests = [⟨"ETHUSDT", 0, 0, 2, 0⟩, ⟨"ETHUSDT", 5, 5, 4, 0⟩] ∧ s.Budget := by
  have hrun : ((init ["ETHUSDT"] (by decide) 2 0).run oneFailure).map (·.requests) =
      some [⟨"ETHUSDT", 0, 0, 2, 0⟩, ⟨"ETHUSDT", 5, 5, 4, 0⟩] := by
    decide +kernel
  obtain ⟨s, hs, hreq⟩ := Option.map_eq_some_iff.mp hrun
  refine ⟨s, hs, hreq, budget_of_evenlyHeldUp (by decide) hs fun x => ?_⟩
  rw [requestsOf, hreq]
  by_cases hx : "ETHUSDT" = x
  · subst hx
    exact List.isChain_pair.mpr (.inl (by decide +kernel))
  · simp [hx]

/-! ## No weaker condition -/

theorem step_request {now : ℚ} {symbol : String} {rest : List String}
    (hpc : s.pc = .passing now (symbol :: rest)) (hdue : s.handler.Due symbol now) :
    s.step .proceed = some (s.request now symbol rest) := by
  rw [ResyncSys.step, ResyncSys.proceed]
  simp only [hpc, if_pos hdue]

/-- The state after a request that takes `d` and fails. -/
def failing (s : ResyncSys) (now : ℚ) (symbol : String) (rest : List String) (d : ℚ) : ResyncSys :=
  { s with
    clock := s.clock + d
    handler :=
      { s.handler with lastSnapshotAt := s.handler.lastSnapshotAt.set symbol now }.fail symbol
    pc := .passing now rest
    requests := s.requests ++
      [⟨symbol, now, s.clock, s.handler.snapshotGapS symbol, s.handler.holdUntil⟩] }

theorem run_append (acts acts' : List ResyncAct) :
    s.run (acts ++ acts') = (s.run acts).bind (·.run acts') :=
  List.foldlM_append

theorem run_failing {now d : ℚ} {symbol : String} {rest : List String}
    (hpc : s.pc = .passing now (symbol :: rest)) (hdue : s.handler.Due symbol now) (hd : 0 ≤ d)
    (hhold : s.handler.holdUntil ≤ s.clock) :
    s.run [.proceed, .elapse d, .answer .failed 0, .proceed] =
      some (s.failing now symbol rest d) := by
  have hclock : ¬ s.clock + d < s.handler.holdUntil :=
    not_lt.mpr (hhold.trans (le_add_of_nonneg_right hd))
  rw [run, List.foldlM_cons, step_request hpc hdue]
  simp only [ResyncSys.request, List.foldlM_cons, List.foldlM_nil, ResyncSys.step, if_pos hd,
    ResyncSys.proceed, resyncOnce, Option.bind_eq_bind, Option.bind_some, fail, if_neg hclock]
  rfl

/-- In a pass over two symbols the first request takes `h₁` and the second one nothing; in the next
pass, after a pause, the first request takes `h₂`. All of them fail. -/
def lateRun (h₁ h₂ pause : ℚ) : List ResyncAct :=
  let request (d : ℚ) : List ResyncAct := [.proceed, .elapse d, .answer .failed 0, .proceed]
  let again : List ResyncAct := [.proceed]
  let wait : List ResyncAct := [.proceed, .elapse pause, .proceed]
  let start : List ResyncAct := [.connect, .proceed]
  start ++ (request h₁ ++ (request 0 ++ (wait ++ (request h₂ ++ again))))

section late

variable (h₁ h₂ pause gap : ℚ)

def twoSymbols : ResyncSys := init ["BTCUSDT", "ETHUSDT"] (by decide) (gap / 2) 0

/-- In the first pass. -/
def firstPass : ResyncSys :=
  { twoSymbols gap with
    handler := (twoSymbols gap).handler.onConnect
    pc := .passing 0 ["BTCUSDT", "ETHUSDT"] }

/-- After the first pass. -/
def firstFailed : ResyncSys :=
  ((firstPass gap).failing 0 "BTCUSDT" ["ETHUSDT"] h₁).failing 0 "ETHUSDT" [] 0

/-- In the second pass. -/
def secondPass : ResyncSys :=
  { firstFailed h₁ gap with
    clock := h₁ + pause
    pc := .passing (h₁ + pause) ["BTCUSDT", "ETHUSDT"] }

end late

variable {h₁ h₂ pause gap : ℚ}

theorem run_firstPass (gap : ℚ) (h0 : 0 ≤ h₁) : (firstPass gap).run
    ([.proceed, .elapse h₁, .answer .failed 0, .proceed] ++ [.proceed, .elapse 0, .answer .failed 0,
      .proceed]) =
      some (firstFailed h₁ gap) := by
  have hfirst : ∀ x, ¬ (0 : ℚ) - (-1_000_000_000) < min snapshotBackoffMaxS x := fun x =>
    not_lt.mpr ((min_le_left ..).trans (by norm_num [snapshotBackoffMaxS]))
  rw [run_append, run_failing (s := firstPass gap) rfl ⟨rfl, rfl, hfirst _⟩ h0 le_rfl,
    Option.bind_some]
  refine run_failing rfl ⟨rfl, rfl, hfirst _⟩ le_rfl ?_
  change (0 : ℚ) ≤ 0 + h₁
  rwa [zero_add]

theorem clock_firstFailed : (firstFailed h₁ gap).clock = h₁ := by
  change 0 + h₁ + 0 = h₁
  rw [zero_add, add_zero]

theorem run_secondPass (h0 : 0 ≤ h₁) (hp : 0 ≤ pause) :
    (firstFailed h₁ gap).run [.proceed, .elapse pause, .proceed] =
      some (secondPass h₁ pause gap) := by
  have hready : (firstFailed h₁ gap).handler.connected ∧
      (firstFailed h₁ gap).handler.holdUntil ≤ h₁ + pause := ⟨rfl, add_nonneg h0 hp⟩
  rw [run, List.foldlM_cons, show (firstFailed h₁ gap).step .proceed =
    some { firstFailed h₁ gap with pc := .sleeping } from rfl]
  simp only [List.foldlM_cons, List.foldlM_nil, ResyncSys.step, if_pos hp, ResyncSys.proceed,
    Option.bind_eq_bind, Option.bind_some, clock_firstFailed, if_pos hready]
  rfl

/-- Both symbols are due again once the gap is over since the first reading. -/
theorem due_secondPass (h₁ : ℚ) (hgap : gap ≤ h₁ + pause) (hcap : gap ≤ snapshotBackoffMaxS) :
    (secondPass h₁ pause gap).handler.Due "BTCUSDT" (h₁ + pause) ∧
      (secondPass h₁ pause gap).handler.Due "ETHUSDT" (h₁ + pause) ∧
      (secondPass h₁ pause gap).handler.snapshotGapS "ETHUSDT" = gap := by
  have hmin : min snapshotBackoffMaxS (gap / 2 * 2 ^ 1) = gap := by
    rw [pow_one, div_mul_cancel₀ _ two_ne_zero, min_eq_right hcap]
  have hwait : ¬ h₁ + pause - 0 < min snapshotBackoffMaxS (gap / 2 * 2 ^ 1) := by
    rw [hmin, sub_zero]
    exact not_lt.mpr hgap
  exact ⟨⟨rfl, rfl, hwait⟩, ⟨rfl, rfl, hwait⟩, hmin⟩

/-- The second symbol is requested `h₁` and then `h₂` after the readings of the passes. -/
theorem lateRun_requests (h0 : 0 ≤ h₁) (h0' : 0 ≤ h₂) (hp : 0 ≤ pause) (hgap : gap ≤ h₁ + pause)
    (hcap : gap ≤ snapshotBackoffMaxS) : ∃ s, (twoSymbols gap).run (lateRun h₁ h₂ pause) = some s ∧
      s.requestsOf "ETHUSDT" = [⟨"ETHUSDT", 0, h₁, min snapshotBackoffMaxS (gap / 2), 0⟩,
        ⟨"ETHUSDT", h₁ + pause, h₁ + pause + h₂, gap, 0⟩] := by
  obtain ⟨hbtc, heth, hgap'⟩ := due_secondPass h₁ hgap hcap
  have hfirst := run_firstPass gap h0
  rw [run_append] at hfirst
  obtain ⟨s₂, hs₂, hfirst⟩ := Option.bind_eq_some_iff.mp hfirst
  have hsecond := run_failing (s := secondPass h₁ pause gap) rfl hbtc h0' (add_nonneg h0 hp)
  have hlast : ((secondPass h₁ pause gap).failing (h₁ + pause) "BTCUSDT" ["ETHUSDT"] h₂).handler.Due
      "ETHUSDT"
      (h₁ + pause) := ⟨rfl, rfl, heth.2.2⟩
  refine ⟨((secondPass h₁ pause gap).failing (h₁ + pause) "BTCUSDT" ["ETHUSDT"] h₂).request
    (h₁ + pause)
    "ETHUSDT" [], ?_, ?_⟩
  · rw [lateRun, run_append, show (twoSymbols gap).run [.connect, .proceed] =
      some (firstPass gap) from rfl, Option.bind_some, run_append, hs₂, Option.bind_some,
      run_append, hfirst, Option.bind_some, run_append,
      run_secondPass h0 hp, Option.bind_some, run_append, hsecond, Option.bind_some, run,
      List.foldlM_cons, step_request rfl hlast]
    rfl
  · change [(⟨"ETHUSDT", 0, 0 + h₁, min snapshotBackoffMaxS (gap / 2 * 2 ^ 0),
      0⟩ : SnapshotRequest), ⟨"ETHUSDT", h₁ + pause, h₁ + pause + h₂,
        (secondPass h₁ pause gap).handler.snapshotGapS "ETHUSDT", 0⟩] = _
    rw [zero_add, pow_zero, mul_one, hgap']

/-- The condition is exact: for other hold-ups some run breaks the budget. -/
theorem evenlyHeldUp_exact (h0 : 0 ≤ h₁) (h0' : 0 ≤ h₂) (hcap : gap ≤ snapshotBackoffMaxS) :
    (∀ symbols nodup minGapS clock acts s, (init symbols nodup minGapS clock).run acts = some s →
      ∀ x l l' r r', s.requestsOf x = l ++ r :: r' :: l' → r.heldUp = h₁ → r'.heldUp = h₂ →
        r'.gap = gap →
        gap ≤ r'.start - r.start) ↔ h₁ ≤ h₂ ∨ gap ≤ h₂ := by
  constructor
  · intro h
    by_contra hnot
    obtain ⟨hlt, hlt'⟩ := not_or.mp hnot
    have hpause : 0 ≤ max h₁ gap - h₁ := sub_nonneg.mpr (le_max_left ..)
    have hgap : gap ≤ h₁ + (max h₁ gap - h₁) := by
      rw [add_sub_cancel]
      exact le_max_right ..
    obtain ⟨s, hs, hreq⟩ := lateRun_requests h0 h0' hpause hgap hcap
    have hle :=
      h _ _ _ _ _ s hs "ETHUSDT" [] [] _ _ hreq (sub_zero h₁) (add_sub_cancel_left _ h₂) rfl
    dsimp only at hle
    rcases max_choice h₁ gap with hmax | hmax <;> rw [hmax] at hle <;> linarith
  · intro heven symbols nodup minGapS clock acts s hs x l l' r r' heq hr hr' hg
    have H := (stamped_init symbols nodup minGapS clock).run hs
    rw [← hg]
    exact H.gap_le heq (by rwa [hr, hr', hg])

/-- A request of BTC takes 15 seconds, and ETH, requested after it, is requested again a quarter of
a second later, where it should wait for 4. -/
theorem not_budget : ¬ ∀ symbols nodup minGapS clock acts s,
    (init symbols nodup minGapS clock).run acts = some s → s.Budget := by
  intro h
  obtain ⟨s, hs, hreq⟩ := lateRun_requests (show (0 : ℚ) ≤ 15 by norm_num) le_rfl
    (show (0 : ℚ) ≤ 1 / 4 by norm_num) (show (4 : ℚ) ≤ 15 + 1 / 4 by norm_num)
    (by norm_num [snapshotBackoffMaxS])
  have hbudget := (h _ _ _ _ _ s hs).2 "ETHUSDT"
  rw [hreq, List.isChain_pair] at hbudget
  norm_num at hbudget

end ResyncSys

end P300
