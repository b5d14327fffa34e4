import P300.Bots.Heartbeat

/-!
# Two instances that both trade

Two processes beat under one name, and their steps interleave. A heartbeat finds the other process
if its `SELECT` comes after an `UPSERT` of the other that came after the own previous one, and that
carries a later stamp. It clears the flag if it does not. So both processes open trades whenever the
last heartbeats of both miss each other: after two in a row of one and then of the other, or where
they overlap.
-/

namespace P300

open Register

/-! ## The history of the row -/

/-- What a step does to the shared row. -/
def BeatStep.event? : BeatStep → Option (Event Instance ℕ)
  | .select p => some (.read p)
  | .selectFails p => some (.lost p)
  | .upsert p now => some (.write p now)
  | .boot _ | .stamp .. | .upsertFails _ => none

/-- What a run has done to the shared row. -/
def rowHistory (tr : List BeatStep) : List (Event Instance ℕ) := tr.filterMap BeatStep.event?

/-- The last heartbeat of `p` selected the row after an `UPSERT` of the other process, which came
after the previous `UPSERT` of `p` and with a later stamp. -/
def FindsOther (p : Instance) (tr : List BeatStep) : Prop := Sees p (rowHistory tr)

/-- How many heartbeats `p` has completed while the other process was alive. -/
def sharedBeats (p : Instance) : List BeatStep → ℕ
  | [] => 0
  | .upsert q _ :: tr => sharedBeats p tr + if q = p ∧ .boot p.other ∈ tr then 1 else 0
  | _ :: tr => sharedBeats p tr

theorem duplicatePid_isSome {myPid : ℕ} {prevOwn : Option ℕ} {row : Option (Option ℕ × ℕ)} :
    (duplicatePid myPid prevOwn row).isSome ↔
      ∃ pid t u, row = some (some pid, t) ∧ prevOwn = some u ∧ pid ≠ myPid ∧ u < t := by
  unfold duplicatePid
  split
  · next pid t u =>
    split
    · next h => exact ⟨fun _ => ⟨pid, t, u, rfl, rfl, h⟩, fun _ => rfl⟩
    · next h =>
      refine ⟨fun h => (by cases h), ?_⟩
      rintro ⟨_, _, _, hrow, hown, h'⟩
      cases hrow
      cases hown
      exact absurd h' h
  · next hne =>
    refine ⟨fun h => (by cases h), ?_⟩
    rintro ⟨pid, t, u, rfl, rfl, -⟩
    exact (hne pid t u rfl rfl).elim

namespace Heartbeats

variable {c : Doubled} {s s' : Heartbeats} {h : List (Event Instance ℕ)} {tr : List BeatStep}
  {p q : Instance}

/-- The state is what the history makes of it. -/
structure Tracks (c : Doubled) (s : Heartbeats) (h : List (Event Instance ℕ)) : Prop where
  row : ∀ p t, cell h = some (p, t) → ∃ r, s.row = some r ∧ r.pid = some (c.pid p) ∧
    r.lastTickUtc = t
  lastHbWrite : ∀ p, (s.proc p).lastHbWrite = own p h
  selected : ∀ p now args row, (s.proc p).phase = .selected now args row →
    ((duplicatePid (c.pid p) (own p h) row).isSome ↔ Overtaken p h)
  reason : ∀ p, isStandingDown (s.proc p).reason ↔ Sees p h

theorem Tracks.init (c : Doubled) (row : Option HeartbeatRow) (clock : ℕ) :
    Tracks c (Heartbeats.init row clock) [] where
  row _ _ h := nomatch h
  lastHbWrite _ := rfl
  selected _ _ _ _ h := nomatch h
  reason _ := ⟨fun h => (by cases h), fun h => (not_sees_nil h).elim⟩

/-- A process goes on without the row. -/
theorem Tracks.goto {phase : BeatPhase} (hs : Tracks c s h)
    (hphase : ∀ now args row, phase ≠ .selected now args row) : Tracks c (s.goto p phase) h where
  row := hs.row
  lastHbWrite q := by rw [goto_lastHbWrite, hs.lastHbWrite]
  selected q now args row hsel := by
    by_cases hq : q = p
    · subst hq
      rw [goto_phase_self] at hsel
      exact absurd hsel (hphase now args row)
    · rw [goto_phase_ne hq] at hsel
      exact hs.selected q now args row hsel
  reason q := by rw [goto_reason, hs.reason]

/-- A process selects the row, or fails to. -/
theorem Tracks.select {e : Event Instance ℕ} {now : ℕ} {args : HeartbeatArgs}
    {row : Option (Option ℕ × ℕ)} (hs : Tracks c s h) (hw : e.writer? = none)
    (hr : e.reader? = some p) (hrow : (duplicatePid (c.pid p) (own p h) row).isSome ↔
      Overtaken p (e :: h)) :
    Tracks c (s.goto p (.selected now args row)) (e :: h) := by
  have hown : ∀ q, own q (e :: h) = own q h := fun q =>
    own_append (l := [e]) fun _ he =>
      by rw [List.mem_singleton.mp he, hw]; exact (Option.some_ne_none _).symm
  have hcell : cell (e :: h) = cell h :=
    cell_append (l := [e]) fun _ he => by rw [List.mem_singleton.mp he, hw]
  have hsees : ∀ q, Sees q (e :: h) ↔ Sees q h := fun q =>
    sees_cons (by rw [hw]; exact (Option.some_ne_none _).symm)
  refine ⟨by rw [hcell]; exact hs.row, ?_, ?_, ?_⟩
  · intro q
    rw [goto_lastHbWrite, hown, hs.lastHbWrite]
  · intro q now' args' row' hsel
    rw [hown]
    by_cases hq : q = p
    · subst hq
      rw [goto_phase_self] at hsel
      cases hsel
      exact hrow
    · rw [goto_phase_ne hq] at hsel
      have he : e.writer? ≠ some q ∧ e.reader? ≠ some q :=
        ⟨by rw [hw]; exact (Option.some_ne_none _).symm,
          by rw [hr]; exact fun h => hq (Option.some.inj h).symm⟩
      rw [overtaken_cons he]
      exact hs.selected q now' args' row' hsel
  · intro q
    rw [hsees, goto_reason, hs.reason]

/-- What a `SELECT` returns to a process tells it whether it is overtaken. -/
theorem Tracks.selected_row (hs : Tracks c s h) :
    (duplicatePid (c.pid p) (own p h) (s.row.map fun r => (r.pid, r.lastTickUtc))).isSome ↔
      Overtaken p (.read p :: h) := by
  rw [duplicatePid_isSome, overtaken_read]
  constructor
  · rintro ⟨pid, t, u, hrow, hown, hpid, hut⟩
    obtain ⟨⟨j, v⟩, hc⟩ := Option.ne_none_iff_exists'.mp (cell_ne_none hown)
    obtain ⟨r, hr, hrpid, hrt⟩ := hs.row j v hc
    rw [hr, Option.map_some, hrpid, hrt] at hrow
    cases hrow
    exact ⟨j, u, t, fun hj => hpid (by rw [hj]), hut, hown, hc⟩
  · rintro ⟨j, u, v, hj, huv, hown, hc⟩
    obtain ⟨r, hr, hrpid, hrt⟩ := hs.row j v hc
    exact ⟨c.pid j, v, u, by rw [hr, Option.map_some, hrpid, hrt], hown,
      fun h => hj (c.pid_inj.mp h), huv⟩

/-- A process upserts the row and settles its flag. -/
theorem Tracks.upsert {now : ℕ} {args : HeartbeatArgs} {row : Option (Option ℕ × ℕ)}
    {old : Option HeartbeatRow} (hs : Tracks c s h)
    (hp : (s.proc p).phase = .selected now args row) :
    let duplicate := duplicatePid (c.pid p) (s.proc p).lastHbWrite row
    Tracks c
      { s.set p ⟨.idle, some now, heartbeatGuard c.name duplicate⟩ with
        row := some (upsertHeartbeat c.name (c.pid p) now args duplicate old) }
      (.write p now :: h) where
  row q t hc := by
    cases hc
    exact ⟨_, rfl, rfl, rfl⟩
  lastHbWrite q := by
    by_cases hq : q = p
    · subst hq
      simp
    · simp [hq, Ne.symm hq, hs.lastHbWrite]
  selected q now' args' row' hsel := by
    by_cases hq : q = p
    · subst hq
      simp at hsel
    · simp only [set_proc_ne hq] at hsel
      have he : (Event.write p now).writer? ≠ some q ∧ (Event.write p now).reader? ≠ some q :=
        ⟨fun h => hq (Option.some.inj h).symm, (by rintro ⟨⟩)⟩
      rw [overtaken_cons he, own_write, if_neg (Ne.symm hq)]
      exact hs.selected q now' args' row' hsel
  reason q := by
    by_cases hq : q = p
    · subst hq
      rw [sees_write, ← hs.selected q now args row hp, ← hs.lastHbWrite]
      simp
    · have he : (Event.write p now).writer? ≠ some q := fun h => hq (Option.some.inj h).symm
      rw [sees_cons he, ← hs.reason]
      simp only [set_proc_ne hq]

/-- What one step keeps. -/
theorem Tracks.step {a : BeatStep} (hs : Tracks c s (rowHistory tr))
    (hstep : step c s a = some s') :
    Tracks c s' (rowHistory (a :: tr)) := by
  cases a with
  | boot p =>
    simp only [Heartbeats.step] at hstep
    split at hstep
    · cases hstep
      exact hs.goto fun _ _ _ h => by cases h
    · cases hstep
  | stamp p now args =>
    simp only [Heartbeats.step] at hstep
    split at hstep
    · split at hstep
      · cases hstep
        have hgoto : Tracks c (s.goto p (.stamped now args)) (rowHistory tr) :=
          hs.goto fun _ _ _ h => by cases h
        exact ⟨hgoto.row, hgoto.lastHbWrite, hgoto.selected, hgoto.reason⟩
      · cases hstep
    · cases hstep
  | select p =>
    simp only [Heartbeats.step] at hstep
    split at hstep
    · cases hstep
      exact hs.select rfl rfl hs.selected_row
    · cases hstep
  | selectFails p =>
    simp only [Heartbeats.step] at hstep
    split at hstep
    · cases hstep
      exact hs.select rfl rfl ⟨fun h => (by cases h), fun h => (not_overtaken_lost h).elim⟩
    · cases hstep
  | upsert p t =>
    simp only [Heartbeats.step] at hstep
    split at hstep
    · next hp =>
      split at hstep
      · next ht =>
        cases hstep
        subst ht
        exact hs.upsert hp
      · cases hstep
    · cases hstep
  | upsertFails p =>
    simp only [Heartbeats.step] at hstep
    split at hstep
    · cases hstep
      exact hs.goto fun _ _ _ h => by cases h
    · cases hstep

/-- The state after a run is what its history makes of it. -/
theorem run_tracks {row : Option HeartbeatRow} {clock : ℕ}
    (h : run c (init row clock) tr = some s) :
    Tracks c s (rowHistory tr) := by
  induction tr generalizing s with
  | nil =>
    cases h
    exact .init c row clock
  | cons a tr ih =>
    obtain ⟨s₀, hs₀, hstep⟩ := Option.bind_eq_some_iff.mp h
    exact (ih hs₀).step hstep

/-- A process trades unless its last heartbeat has found the other one. -/
theorem entryAllowed_iff {row : Option HeartbeatRow} {clock : ℕ}
    (h : run c (init row clock) tr = some s) :
    s.EntryAllowed p ↔ ¬ FindsOther p tr := by
  rw [EntryAllowed, checkEntryAllowed_eq_ok, FindsOther, ← (run_tracks h).reason, Bool.not_eq_true]

/-- Only a stamp moves the clock, and it moves it on. -/
theorem step_clock {a : BeatStep} (hstep : step c s a = some s') :
    s.clock ≤ s'.clock ∧ ∀ p now args, a = .stamp p now args → s.clock < now ∧ s'.clock = now := by
  cases a with
  | stamp p now args =>
    simp only [Heartbeats.step] at hstep
    split at hstep
    · split at hstep
      · next hlt =>
        cases hstep
        refine ⟨Nat.le_of_lt hlt, ?_⟩
        rintro _ _ _ ⟨⟩
        exact ⟨hlt, rfl⟩
      · cases hstep
    · cases hstep
  | upsert p t =>
    refine ⟨?_, fun _ _ _ h => by cases h⟩
    simp only [Heartbeats.step] at hstep
    split at hstep
    · split at hstep
      · cases hstep
        exact Nat.le_refl _
      · cases hstep
    · cases hstep
  | boot p | select p | selectFails p | upsertFails p =>
    refine ⟨?_, fun _ _ _ h => by cases h⟩
    simp only [Heartbeats.step] at hstep
    split at hstep
    · cases hstep
      exact Nat.le_refl _
    · cases hstep

/-! ## Heartbeats in one go -/

section serial

/-- A heartbeat in one go. -/
def beat (p : Instance) (now : ℕ) : List BeatStep := [.upsert p now, .select p, .stamp p now {}]

/-- Heartbeats in one go, the latest first, after both processes have started. -/
def serialRun (beats : List (Instance × ℕ)) : List BeatStep :=
  beats.flatMap (fun b => beat b.1 b.2) ++ [.boot .second, .boot .first]

variable {beats : List (Instance × ℕ)} {t : ℕ}

theorem rowHistory_serialRun_cons : rowHistory (serialRun ((p, t) :: beats)) =
    .write p t :: .read p :: rowHistory (serialRun beats) := rfl

theorem cell_serialRun (beats : List (Instance × ℕ)) :
    cell (rowHistory (serialRun beats)) = beats.head? := by
  cases beats <;> rfl

theorem own_serialRun (beats : List (Instance × ℕ)) :
    own p (rowHistory (serialRun beats)) = (beats.find? fun b => b.1 = p).map Prod.snd := by
  induction beats with
  | nil => rfl
  | cons b beats ih =>
    obtain ⟨q, t⟩ := b
    rw [rowHistory_serialRun_cons, own_write, own_read, ih, List.find?_cons]
    by_cases hq : q = p
    · simp [hq]
    · simp [hq]

/-- The heartbeats of a process find the other one if that one has just beaten. -/
theorem findsOther_serialRun_self (hs : ((p, t) :: beats).Pairwise fun b b' => b'.2 < b.2) :
    FindsOther p (serialRun ((p, t) :: beats)) ↔
      (beats.map Prod.fst).head? = some p.other ∧ p ∈ beats.map Prod.fst := by
  rw [FindsOther, rowHistory_serialRun_cons, sees_write, overtaken_read, cell_serialRun,
    own_serialRun]
  constructor
  · rintro ⟨j, u, v, hj, -, hown, hc⟩
    obtain ⟨b, hb, -⟩ := Option.map_eq_some_iff.mp hown
    constructor
    · rw [List.head?_map, hc, Instance.eq_other.mpr hj]
      rfl
    · have hbp : b.1 = p := by simpa using List.find?_some hb
      exact hbp ▸ List.mem_map_of_mem (List.mem_of_find?_eq_some hb)
  · rintro ⟨hhead, hmem⟩
    cases beats with
    | nil => cases hhead
    | cons b beats =>
      obtain ⟨j, v⟩ := b
      have hj : j ≠ p := Instance.eq_other.mp (Option.some.inj hhead)
      rcases List.mem_cons.mp hmem with h | hmem
      · exact absurd h.symm hj
      obtain ⟨b, hb, hbp⟩ := List.mem_map.mp hmem
      obtain ⟨b', hb'⟩ : ∃ b', beats.find? (fun b => b.1 = p) = some b' :=
        Option.isSome_iff_exists.mp (List.find?_isSome.mpr ⟨b, hb, by simpa using hbp⟩)
      refine ⟨j, b'.2, v, hj, ?_, ?_, rfl⟩
      · exact (List.pairwise_cons.mp (List.pairwise_cons.mp hs).2).1 b'
          (List.mem_of_find?_eq_some hb')
      · rw [List.find?_cons_of_neg (by simpa using hj), hb']
        rfl

theorem findsOther_serialRun_ne (hq : q ≠ p) :
    FindsOther p (serialRun ((q, t) :: beats)) ↔ FindsOther p (serialRun beats) := by
  have hw : (Event.write q t).writer? ≠ some p := fun h => hq (Option.some.inj h)
  have hr : (Event.read q : Event Instance ℕ).writer? ≠ some p := by rintro ⟨⟩
  rw [FindsOther, rowHistory_serialRun_cons, sees_cons hw, sees_cons hr, FindsOther]

/-- In one go, the last heartbeat of a process misses the other one if it follows directly on its
previous one. -/
theorem not_findsOther_serialRun (hs : beats.Pairwise fun b b' => b'.2 < b.2)
    (htwo : 2 ≤ (beats.map Prod.fst).count q) : ¬ FindsOther q (serialRun beats) ↔
      ∃ k rest, beats.map Prod.fst = List.replicate k q.other ++ q :: q :: rest := by
  induction beats with
  | nil => cases htwo
  | cons b beats ih =>
    obtain ⟨p, t⟩ := b
    rw [List.map_cons] at htwo ⊢
    by_cases hp : p = q
    · subst hp
      rw [List.count_cons_self] at htwo
      have hmem : p ∈ beats.map Prod.fst := List.count_pos_iff.mp (by omega)
      rw [findsOther_serialRun_self hs, and_iff_left hmem]
      cases ho : beats.map Prod.fst with
      | nil =>
        rw [ho] at hmem
        cases hmem
      | cons p' order =>
        rw [List.head?_cons, Option.some.injEq, Instance.eq_other, not_not]
        constructor
        · rintro rfl
          exact ⟨0, order, rfl⟩
        · rintro ⟨k, rest, h⟩
          cases k with
          | zero =>
            cases h
            rfl
          | succ k => exact absurd (List.head_eq_of_cons_eq h) (Instance.ne_other p)
    · rw [List.count_cons_of_ne hp] at htwo
      rw [findsOther_serialRun_ne hp, ih (List.pairwise_cons.mp hs).2 htwo,
        Instance.eq_other.mpr hp]
      constructor
      · rintro ⟨k, rest, h⟩
        exact ⟨k + 1, rest, by rw [h]; rfl⟩
      · rintro ⟨k, rest, h⟩
        cases k with
        | zero => exact absurd (List.head_eq_of_cons_eq h).symm (Instance.ne_other q)
        | succ k => exact ⟨k, rest, List.tail_eq_of_cons_eq h⟩

/-- Two heartbeats of one process in a row, and then two or more of the other one. -/
def BurstAfterBurst (order : List Instance) : Prop :=
  ∃ p k rest, order = List.replicate (k + 2) p ++ p.other :: p.other :: rest

/-- Heartbeats in one go miss each other exactly after a burst of the one directly follows a burst
of the other. -/
theorem serial_miss_iff (hs : beats.Pairwise fun b b' => b'.2 < b.2)
    (htwo : ∀ p, 2 ≤ (beats.map Prod.fst).count p) :
    (∀ p, ¬ FindsOther p (serialRun beats)) ↔ BurstAfterBurst (beats.map Prod.fst) := by
  constructor
  · intro hmiss
    cases ho : beats.map Prod.fst with
    | nil =>
      have h := htwo .first
      rw [ho] at h
      cases h
    | cons p order =>
      obtain ⟨k, rest, hself⟩ := (not_findsOther_serialRun hs (htwo p)).mp (hmiss p)
      obtain ⟨k', rest', hother⟩ := (not_findsOther_serialRun hs (htwo p.other)).mp (hmiss p.other)
      rw [ho] at hself hother
      rw [p.other_other] at hother
      cases k with
      | succ k => exact absurd (List.head_eq_of_cons_eq hself) p.ne_other
      | zero =>
        have horder : order = p :: rest := List.tail_eq_of_cons_eq hself
        match k', hother with
        | 0, hother => exact absurd (List.head_eq_of_cons_eq hother) p.ne_other
        | 1, hother =>
          rw [horder] at hother
          exact absurd (List.head_eq_of_cons_eq (List.tail_eq_of_cons_eq hother)) p.ne_other
        | k' + 2, hother => exact ⟨p, k', rest', hother⟩
  · rintro ⟨p, k, rest, ho⟩
    have horder : beats.map Prod.fst =
        p :: p :: (List.replicate k p ++ p.other :: p.other :: rest) := ho
    have hself : ¬ FindsOther p (serialRun beats) :=
      (not_findsOther_serialRun hs (htwo p)).mpr ⟨0, _, horder⟩
    have hother : ¬ FindsOther p.other (serialRun beats) :=
      (not_findsOther_serialRun hs (htwo p.other)).mpr ⟨k + 2, rest, by rw [ho, p.other_other]⟩
    intro q
    by_cases hq : q = p
    · rwa [hq]
    · rwa [Instance.eq_other.mpr hq]

/-- The stamps of a run are in order. -/
theorem serialRun_sorted {row : Option HeartbeatRow} {clock : ℕ}
    (h : run c (init row clock) (serialRun beats) = some s) :
    (∀ b ∈ beats, b.2 ≤ s.clock) ∧ beats.Pairwise fun b b' => b'.2 < b.2 := by
  induction beats generalizing s with
  | nil => exact ⟨List.forall_mem_nil _, .nil⟩
  | cons b beats ih =>
    obtain ⟨s₂, hs₂, hupsert⟩ := Option.bind_eq_some_iff.mp h
    obtain ⟨s₁, hs₁, hselect⟩ := Option.bind_eq_some_iff.mp hs₂
    obtain ⟨s₀, hs₀, hstamp⟩ := Option.bind_eq_some_iff.mp hs₁
    obtain ⟨hle, hsorted⟩ := ih hs₀
    obtain ⟨hlt, hnow⟩ := (step_clock hstamp).2 _ _ _ rfl
    have hclock : b.2 ≤ s.clock := hnow ▸ Nat.le_trans (step_clock hselect).1 (step_clock hupsert).1
    have hold : ∀ b' ∈ beats, b'.2 < b.2 := fun b' hb' => Nat.lt_of_le_of_lt (hle b' hb') hlt
    refine ⟨List.forall_mem_cons.mpr ⟨hclock, fun b' hb' => ?_⟩,
      List.pairwise_cons.mpr ⟨hold, hsorted⟩⟩
    exact Nat.le_trans (Nat.le_of_lt (hold b' hb')) hclock

/-- After heartbeats in one go, two or more of each process, both trade exactly if a burst of the
one has directly followed a burst of the other. -/
theorem serial_both_trade_iff {row : Option HeartbeatRow} {clock : ℕ}
    (h : run c (init row clock) (serialRun beats) = some s)
    (htwo : ∀ p, 2 ≤ (beats.map Prod.fst).count p) :
    (∀ p, s.EntryAllowed p) ↔ BurstAfterBurst (beats.map Prod.fst) := by
  rw [← serial_miss_iff (serialRun_sorted h).2 htwo]
  exact forall_congr' fun p => entryAllowed_iff h

end serial

/-! ## Every run -/

/-- A run has got through all that came before. -/
theorem run_suffix {tr' : List BeatStep} {s₀ : Heartbeats} (h : run c s₀ tr = some s)
    (hsuf : tr' <:+ tr) :
    ∃ s', run c s₀ tr' = some s' := by
  obtain ⟨l, rfl⟩ := hsuf
  induction l generalizing s with
  | nil => exact ⟨s, h⟩
  | cons a l ih =>
    obtain ⟨s₁, hs₁, -⟩ := Option.bind_eq_some_iff.mp h
    exact ih hs₁

/-- From two heartbeats of each process on they never both trade in a run, if and only if at every
such moment of it the last heartbeat of one of them has found the other one. -/
theorem never_both_trade_iff {row : Option HeartbeatRow} {clock : ℕ}
    (h : run c (init row clock) tr = some s) :
    (∀ tr' s', tr' <:+ tr → run c (init row clock) tr' = some s' →
        2 ≤ sharedBeats .first tr' → 2 ≤ sharedBeats .second tr' →
        ¬ (s'.EntryAllowed .first ∧ s'.EntryAllowed .second)) ↔
      ∀ tr', tr' <:+ tr → 2 ≤ sharedBeats .first tr' → 2 ≤ sharedBeats .second tr' →
        FindsOther .first tr' ∨ FindsOther .second tr' := by
  constructor
  · intro hnever tr' hsuf h₁ h₂
    obtain ⟨s', hs'⟩ := run_suffix h hsuf
    have hnot := hnever tr' s' hsuf hs' h₁ h₂
    rw [entryAllowed_iff hs', entryAllowed_iff hs', ← not_or, not_not] at hnot
    exact hnot
  · intro hfind tr' s' hsuf hs' h₁ h₂
    rw [entryAllowed_iff hs', entryAllowed_iff hs', ← not_or, not_not]
    exact hfind tr' hsuf h₁ h₂

/-- Two copies of one bot. -/
def adxTwice : Doubled where
  name := "adx"
  pid
    | .first => 1111
    | .second => 2222
  pid_ne := by decide

/-- The processes take turns. -/
def turnsRun : List BeatStep :=
  serialRun [(.second, 4), (.first, 3), (.second, 2), (.first, 1)]

theorem never_both_trade_iff_turns :
    (∀ tr' s', tr' <:+ turnsRun → run adxTwice (init none 0) tr' = some s' →
        2 ≤ sharedBeats .first tr' → 2 ≤ sharedBeats .second tr' →
        ¬ (s'.EntryAllowed .first ∧ s'.EntryAllowed .second)) ↔
      ∀ tr', tr' <:+ turnsRun → 2 ≤ sharedBeats .first tr' → 2 ≤ sharedBeats .second tr' →
        FindsOther .first tr' ∨ FindsOther .second tr' :=
  never_both_trade_iff (show run adxTwice (init none 0) turnsRun = some _ from rfl)

/-- Each process beats twice in a row while the other one stalls. -/
def burstRun : List BeatStep :=
  serialRun [(.second, 6), (.second, 5), (.first, 4), (.first, 3), (.second, 2), (.first, 1)]

/-- The processes beat at one rate, and an `UPSERT` with an older stamp comes last. -/
def overlapRun : List BeatStep :=
  [.upsert .second 6, .upsert .first 5, .select .second, .select .first,
    .stamp .second 6 {}, .stamp .first 5 {},
    -- the second heartbeats: the stamp of `first` is the older one
    .upsert .first 3, .upsert .second 4, .select .second, .select .first,
    .stamp .second 4 {}, .stamp .first 3 {}] ++
  serialRun [(.second, 2), (.first, 1)]

theorem both_trade :
    (∃ s, run adxTwice (init none 0) burstRun = some s ∧
      2 ≤ sharedBeats .first burstRun ∧ 2 ≤ sharedBeats .second burstRun ∧
      s.EntryAllowed .first ∧ s.EntryAllowed .second) ∧
    ∃ s, run adxTwice (init none 0) overlapRun = some s ∧
      2 ≤ sharedBeats .first overlapRun ∧ 2 ≤ sharedBeats .second overlapRun ∧
      s.EntryAllowed .first ∧ s.EntryAllowed .second :=
  ⟨⟨_, rfl, by decide, by decide, by decide, by decide⟩,
    ⟨_, rfl, by decide, by decide, by decide, by decide⟩⟩

end Heartbeats

end P300
