import P300.Lib.Dict
import Mathlib.Algebra.Order.Ring.Rat
import Mathlib.Data.List.Infix
import Mathlib.Order.Lattice.Nat

/-!
# The OKX backfill

`data/sources/okx_perp.py`, `backfill`: the history is walked backwards from the end by a cursor. A
fetch that raises is tried again without a count, so a run that meets nothing else never ends.
-/

namespace P300

/-! ## The upstream -/

/-- A row of `history-candles`. -/
structure OkxRow where
  /-- milliseconds -/
  ts : Int
  open_ : ℚ
  high : ℚ
  low : ℚ
  close : ℚ
  volumeContracts : ℚ
  volumeBase : ℚ
  volumeUsd : ℚ
  deriving DecidableEq

/-- What one call of `fetch_chunk` comes to. -/
inductive OkxFetch where
  | raised
  | chunk (rows : List OkxRow)

/-- Every page has its newest row first, and only rows older than the cursor. -/
def Older : Int → List OkxFetch → Prop
  | _, [] => True
  | afterMs, .raised :: rest => Older afterMs rest
  | afterMs, .chunk rows :: rest =>
    rows.Pairwise (fun r r' => r'.ts < r.ts) ∧ (∀ r ∈ rows, r.ts < afterMs) ∧
      Older (rows.getLast?.elim afterMs OkxRow.ts) rest

/-- The outcomes of the requests of a run, one after the other. -/
structure OkxUpstream (afterMs : Int) where
  outcome : ℕ → OkxFetch
  older : ∀ n, Older afterMs ((List.range n).map outcome)

/-! ## The loop -/

structure OkxState where
  table : Dict Int OkxRow
  afterMs : Int
  totalWritten : ℕ
  emptyStreak : ℕ
  lastOldest : Option Int

/-- How an iteration leaves the loop's body. -/
inductive OkxExit where
  | next (s : OkxState)
  | stop (s : OkxState)

def dayMs : Int := 86_400_000

/-- `start_ms` and `end_ms` of the dates, as days since 1970. -/
def okxStartMs (start : Int) : Int := start * dayMs

def okxEndMs (stop : Int) : Int := stop * dayMs + dayMs

/-- The first cursor. -/
def okxAfterMs (stop : Int) : Int := okxEndMs stop + 3_600_000

/-- The rows of a page that are written, by their second. -/
def okxRows (startMs : Int) (chunk : List OkxRow) : List (Int × OkxRow) :=
  (chunk.filter fun r => ¬ r.ts < startMs).map fun r => (r.ts / 1000, r)

def okxStep (startMs : Int) (s : OkxState) : OkxFetch → OkxExit
  | .raised => .next s
  | .chunk chunk =>
    match chunk.getLast? with
    | none =>
      let s := { s with emptyStreak := s.emptyStreak + 1 }
      if s.emptyStreak ≥ 3 then .stop s else .next s
    | some oldest =>
      let rows := okxRows startMs chunk
      let s := { s with
        emptyStreak := 0, table := s.table.upsert rows, totalWritten :=
          s.totalWritten + rows.length }
      if oldest.ts ≤ startMs then .stop s
      else if s.lastOldest = some oldest.ts then .stop s  -- cursor not advancing
      else .next { s with lastOldest := some oldest.ts, afterMs := oldest.ts }

/-- `none` if the loop still runs after these outcomes. -/
def okxLoop (startMs : Int) : OkxState → List OkxFetch → Option OkxState
  | _, [] => none
  | s, o :: rest =>
    match okxStep startMs s o with
    | .next s => okxLoop startMs s rest
    | .stop s => some s

/-- `backfill`: the return value, once the loop has ended. -/
def okxBackfill (start stop : Int) (table : Dict Int OkxRow)
    (outcomes : List OkxFetch) : Option ℕ :=
  (okxLoop (okxStartMs start) ⟨table, okxAfterMs stop, 0, 0, none⟩ outcomes).map (·.totalWritten)

/-- The backfill returns after finitely many requests. -/
def OkxEnds (start stop : Int) (table : Dict Int OkxRow)
    (u : OkxUpstream (okxAfterMs stop)) : Prop :=
  ∃ n, (okxBackfill start stop table ((List.range n).map u.outcome)).isSome

/-! ## What ends it -/

def OkxFetch.answer : OkxFetch → Option (List OkxRow)
  | .raised => none
  | .chunk rows => some rows

/-- The outcomes other than exceptions. -/
def okxAnswers (outcomes : List OkxFetch) : List (List OkxRow) := outcomes.filterMap OkxFetch.answer

@[simp] theorem okxAnswers_nil : okxAnswers [] = [] := rfl

@[simp] theorem okxAnswers_raised (rest : List OkxFetch) :
    okxAnswers (.raised :: rest) = okxAnswers rest := rfl

@[simp] theorem okxAnswers_chunk (page : List OkxRow) (rest : List OkxFetch) :
    okxAnswers (.chunk page :: rest) = page :: okxAnswers rest := rfl

/-- A page reaches the start, or three answers in a row are empty. -/
def OkxDone (startMs : Int) (answers : List (List OkxRow)) : Prop :=
  (∃ page ∈ answers, ∃ oldest ∈ page.getLast?, oldest.ts ≤ startMs) ∨ [[], [], []] <:+: answers

/-- From some request on every fetch raises, and the answers before it do not end the run. -/
def OkxUpstream.Dead {afterMs : Int} (u : OkxUpstream afterMs) (startMs : Int) : Prop :=
  ∃ n, (∀ m ≥ n, u.outcome m = .raised) ∧
    ¬ OkxDone startMs (okxAnswers ((List.range n).map u.outcome))

section Loop

variable {startMs : Int} {s : OkxState} {outcomes rest : List OkxFetch}

/-- Between two requests. -/
structure OkxRunning (s : OkxState) : Prop where
  streak : s.emptyStreak < 3
  cursor : ∀ oldest ∈ s.lastOldest, oldest = s.afterMs

/-- What an iteration does with each outcome. The cursor moves with every page that does not end the
run. -/
theorem okxStep_cases (startMs : Int) (H : OkxRunning s) (o : OkxFetch)
    (hold : Older s.afterMs (o :: rest)) :
    (o = .raised ∧ okxStep startMs s o = .next s) ∨
    (o = .chunk [] ∧ s.emptyStreak + 1 = 3 ∧ ∃ s', okxStep startMs s o = .stop s') ∨
    (o = .chunk [] ∧ s.emptyStreak + 1 < 3 ∧
      okxStep startMs s o = .next { s with emptyStreak := s.emptyStreak + 1 }) ∨
    (∃ page oldest, o = .chunk page ∧ page.getLast? = some oldest ∧ oldest.ts ≤ startMs ∧
      ∃ s', okxStep startMs s o = .stop s') ∨
    ∃ page oldest s', o = .chunk page ∧ page.getLast? = some oldest ∧ startMs < oldest.ts ∧
      oldest.ts < s.afterMs ∧ s'.emptyStreak = 0 ∧ s'.afterMs = oldest.ts ∧
      s'.lastOldest = some oldest.ts ∧ okxStep startMs s o = .next s' := by
  cases o with
  | raised => exact .inl ⟨rfl, rfl⟩
  | chunk page =>
    refine .inr ?_
    rw [okxStep]
    cases hlast : page.getLast? with
    | none =>
      obtain rfl := List.getLast?_eq_none_iff.mp hlast
      have hstreak := H.streak
      by_cases h : s.emptyStreak + 1 ≥ 3
      · refine .inl ⟨rfl, by omega, ?_⟩
        simp [h]
      · refine .inr (.inl ⟨rfl, by omega, ?_⟩)
        simp [h]
    | some oldest =>
      have hlt : oldest.ts < s.afterMs := hold.2.1 oldest (List.mem_of_getLast? hlast)
      have hmoves : s.lastOldest ≠ some oldest.ts := fun h => hlt.ne (H.cursor _ h)
      refine .inr (.inr ?_)
      by_cases h : oldest.ts ≤ startMs
      · refine .inl ⟨page, oldest, rfl, hlast, h, ?_⟩
        simp [h]
      · refine .inr ⟨page, oldest, ⟨s.table.upsert (okxRows startMs page), oldest.ts,
          s.totalWritten + (okxRows startMs page).length, 0, some oldest.ts⟩, rfl, hlast,
          not_le.mp h, hlt, rfl, rfl, rfl, ?_⟩
        dsimp only
        rw [if_neg h, if_neg hmoves]

/-- The requests that an unfinished run may still have answered. -/
def okxPotential (startMs : Int) (s : OkxState) : ℕ :=
  3 * (s.afterMs - startMs).toNat + (3 - s.emptyStreak)

/-- Each answer that does not end the run costs some potential, and an exception costs none. -/
theorem length_answers_le (H : OkxRunning s) (hold : Older s.afterMs outcomes)
    (h : okxLoop startMs s outcomes = none) :
    (okxAnswers outcomes).length ≤ okxPotential startMs s := by
  induction outcomes generalizing s with
  | nil => exact Nat.zero_le _
  | cons o rest ih =>
    rw [okxLoop] at h
    obtain ⟨rfl, hs⟩ | ⟨rfl, _, s', hs⟩ | ⟨rfl, hstreak, hs⟩ | ⟨page, oldest, rfl, _, _, s', hs⟩ |
      ⟨page, oldest, s', rfl, hlast, hgt, hlt, hstreak, hafter, hcursor, hs⟩ :=
        okxStep_cases startMs H o hold
    · rw [hs] at h
      exact ih H hold h
    · rw [hs] at h
      cases h
    · rw [hs] at h
      have hrest :=
        ih (s := { s with emptyStreak := s.emptyStreak + 1 }) ⟨hstreak, H.cursor⟩ hold.2.2 h
      dsimp only [okxPotential] at hrest ⊢
      rw [okxAnswers_chunk, List.length_cons]
      omega
    · rw [hs] at h
      cases h
    · rw [hs] at h
      have hrest := ih (s := s') ⟨by omega, by rw [hcursor, hafter]; rintro _ ⟨⟩; rfl⟩
        (by rw [hafter]; simpa [hlast] using hold.2.2) h
      have hfew := H.streak
      dsimp only [okxPotential] at hrest ⊢
      rw [okxAnswers_chunk, List.length_cons]
      omega

theorem replicate_append_infix {k : ℕ} (hk : k < 3) {page : List OkxRow} (hpage : page ≠ [])
    (answers : List (List OkxRow)) :
    [[], [], []] <:+: List.replicate k [] ++ page :: answers ↔ [[], [], []] <:+: answers := by
  have hpage' : [] ≠ page := hpage.symm
  match k, hk with
  | 0, _ => simp [List.infix_cons_iff, hpage']
  | 1, _ => simp [List.infix_cons_iff, hpage', List.replicate]
  | 2, _ => simp [List.infix_cons_iff, hpage', List.replicate]

theorem getLast?_of_mem_replicate {k : ℕ} {page : List OkxRow} (h : page ∈ List.replicate k []) :
    page.getLast? = none := by
  rw [List.eq_of_mem_replicate h]
  rfl

/-- A few empty answers do not end a run. -/
theorem not_okxDone_replicate {k : ℕ} (hk : k < 3) : ¬ OkxDone startMs (List.replicate k []) := by
  rintro (⟨page, hpage, oldest, holdest, _⟩ | hinfix)
  · rw [getLast?_of_mem_replicate hpage] at holdest
    cases holdest
  · have hle := hinfix.length_le
    rw [List.length_replicate] at hle
    exact absurd hk (not_lt.mpr hle)

/-- A page that does not reach the start leaves the end to the later answers. -/
theorem okxDone_page_iff {k : ℕ} (hk : k < 3) {page : List OkxRow} {oldest : OkxRow}
    (hlast : page.getLast? = some oldest) (hgt : startMs < oldest.ts)
    (answers : List (List OkxRow)) :
    OkxDone startMs (List.replicate k [] ++ page :: answers) ↔ OkxDone startMs answers := by
  have hpage : page ≠ [] := by
    rintro rfl
    cases hlast
  rw [OkxDone, OkxDone, replicate_append_infix hk hpage]
  refine or_congr_left ⟨?_, ?_⟩
  · rintro ⟨p, hp, oldest', holdest, hle⟩
    rcases List.mem_append.mp hp with hp | hp
    · rw [getLast?_of_mem_replicate hp] at holdest
      cases holdest
    · rcases List.mem_cons.mp hp with rfl | hp
      · cases hlast.symm.trans holdest
        exact absurd hle (not_le.mpr hgt)
      · exact ⟨p, hp, oldest', holdest, hle⟩
  · rintro ⟨p, hp, hreach⟩
    exact ⟨p, List.mem_append_right _ (List.mem_cons_of_mem _ hp), hreach⟩

/-- A run ends with the answers that reach the start or with the third empty one in a row. -/
theorem isSome_okxLoop_iff (H : OkxRunning s) (hold : Older s.afterMs outcomes) :
    (okxLoop startMs s outcomes).isSome ↔
      OkxDone startMs (List.replicate s.emptyStreak [] ++ okxAnswers outcomes) := by
  induction outcomes generalizing s with
  | nil =>
    refine iff_of_false (by simp [okxLoop]) ?_
    rw [okxAnswers_nil, List.append_nil]
    exact not_okxDone_replicate H.streak
  | cons o rest ih =>
    rw [okxLoop]
    obtain ⟨rfl, hs⟩ | ⟨rfl, hstreak, s', hs⟩ | ⟨rfl, hstreak, hs⟩ |
      ⟨page, oldest, rfl, hlast, hle, s', hs⟩ |
      ⟨page, oldest, s', rfl, hlast, hgt, hlt, hstreak, hafter, hcursor, hs⟩ :=
        okxStep_cases startMs H o hold
    · rw [hs]
      exact ih H hold
    · rw [hs]
      refine iff_of_true rfl (.inr ?_)
      obtain hk : s.emptyStreak = 2 := by omega
      rw [hk, okxAnswers_chunk]
      exact (List.prefix_append [[], [], []] _).isInfix
    · rw [hs]
      have hrest :=
        ih (s := { s with emptyStreak := s.emptyStreak + 1 }) ⟨hstreak, H.cursor⟩ hold.2.2
      refine hrest.trans ?_
      rw [okxAnswers_chunk, List.replicate_succ', List.append_assoc, List.singleton_append]
    · rw [hs]
      refine iff_of_true rfl (.inl ⟨page, ?_, oldest, hlast, hle⟩)
      rw [okxAnswers_chunk]
      exact List.mem_append_right _ List.mem_cons_self
    · rw [hs]
      have hrest := ih (s := s') ⟨by omega, by rw [hcursor, hafter]; rintro _ ⟨⟩; rfl⟩
        (by rw [hafter]; simpa [hlast] using hold.2.2)
      rw [hstreak, List.replicate_zero, List.nil_append] at hrest
      refine hrest.trans ?_
      rw [okxAnswers_chunk]
      exact (okxDone_page_iff H.streak hlast hgt _).symm

end Loop

section upTo

variable {afterMs : Int} (u : OkxUpstream afterMs)

/-- The answers among the first `n` outcomes. -/
def OkxUpstream.answers (n : ℕ) : List (List OkxRow) := okxAnswers ((List.range n).map u.outcome)

theorem OkxUpstream.answers_succ (n : ℕ) :
    u.answers (n + 1) = u.answers n ++ (u.outcome n).answer.toList := by
  rw [answers, answers, okxAnswers, okxAnswers, List.range_succ, List.map_append,
    List.filterMap_append]
  cases h : (u.outcome n).answer <;> simp [h]

theorem OkxUpstream.answers_prefix {m n : ℕ} (h : m ≤ n) : u.answers m <+: u.answers n := by
  induction n, h using Nat.le_induction with
  | base => exact List.prefix_rfl
  | succ n _ ih =>
    rw [u.answers_succ]
    exact ih.trans (List.prefix_append ..)

/-- Exceptions add no answers. -/
theorem OkxUpstream.answers_eq {m n : ℕ} (hdead : ∀ k ≥ m, u.outcome k = .raised) (h : m ≤ n) :
    u.answers n = u.answers m := by
  induction n, h using Nat.le_induction with
  | base => rfl
  | succ n hn ih =>
    rw [u.answers_succ, ih, hdead n hn, OkxFetch.answer, Option.toList_none, List.append_nil]

theorem OkxDone.mono {startMs : Int} {l l' : List (List OkxRow)} (h : OkxDone startMs l)
    (hle : l <+: l') : OkxDone startMs l' :=
  h.imp (fun ⟨page, hpage, hold⟩ => ⟨page, hle.subset hpage, hold⟩) fun h => h.trans hle.isInfix

/-- If there are only so many answers, the outcomes are exceptions from some point on. -/
theorem OkxUpstream.exists_dead {bound : ℕ} (h : ∀ n, (u.answers n).length ≤ bound) :
    ∃ n, ∀ m ≥ n, u.outcome m = .raised := by
  have hbdd : BddAbove (Set.range fun n => (u.answers n).length) := by
    refine ⟨bound, ?_⟩
    rintro _ ⟨n, rfl⟩
    exact h n
  obtain ⟨n, hn⟩ := Nat.sSup_mem (Set.range_nonempty _) hbdd
  refine ⟨n, fun m hm => ?_⟩
  -- an answer after the last one would be one more
  have hmost : (u.answers (m + 1)).length ≤ (u.answers n).length :=
    (le_csSup hbdd (Set.mem_range_self (m + 1))).trans hn.ge
  have hle : (u.answers n).length ≤ (u.answers m).length := (u.answers_prefix hm).length_le
  cases ho : u.outcome m with
  | raised => rfl
  | chunk rows =>
    rw [u.answers_succ, ho, OkxFetch.answer, Option.toList_some, List.length_append,
      List.length_singleton] at hmost
    omega

end upTo

/-- The backfill ends unless the upstream goes dead before. -/
theorem okxEnds_iff (start stop : Int) (table : Dict Int OkxRow)
    (u : OkxUpstream (okxAfterMs stop)) :
    OkxEnds start stop table u ↔ ¬ u.Dead (okxStartMs start) := by
  have hinit : OkxRunning ⟨table, okxAfterMs stop, 0, 0, none⟩ := ⟨Nat.zero_lt_succ _, by simp⟩
  have hdone : ∀ n, (okxBackfill start stop table ((List.range n).map u.outcome)).isSome ↔
      OkxDone (okxStartMs start) (u.answers n) := fun n => by
    rw [okxBackfill, Option.isSome_map]
    exact isSome_okxLoop_iff hinit (u.older n)
  constructor
  · rintro ⟨n, hn⟩ ⟨m, hdead, hnot⟩
    have hlater := ((hdone n).mp hn).mono (u.answers_prefix (le_max_left n m))
    rw [u.answers_eq hdead (le_max_right n m)] at hlater
    exact hnot hlater
  · intro hlive
    by_contra hends
    have hnone : ∀ n, okxLoop (okxStartMs start) ⟨table, okxAfterMs stop, 0, 0, none⟩
        ((List.range n).map u.outcome) = none := fun n => by
      by_contra hsome
      refine hends ⟨n, ?_⟩
      rw [okxBackfill, Option.isSome_map]
      exact Option.isSome_iff_ne_none.mpr hsome
    obtain ⟨n, hdead⟩ := u.exists_dead fun n => length_answers_le hinit (u.older n) (hnone n)
    exact hlive ⟨n, hdead, fun h => hends ⟨n, (hdone n).mpr h⟩⟩

/-- Every fetch raises. -/
def OkxUpstream.down (afterMs : Int) : OkxUpstream afterMs where
  outcome _ := .raised
  older n := by
    induction (List.range n) with
    | nil => trivial
    | cons _ _ ih => exact ih

theorem not_okxEnds_down : ¬ OkxEnds 18628 20598 Dict.empty
    (OkxUpstream.down (okxAfterMs 20598)) := by
  rintro ⟨n, hn⟩
  have hrun : ∀ l : List ℕ, okxBackfill 18628 20598 Dict.empty
      (l.map (OkxUpstream.down (okxAfterMs 20598)).outcome) = none := by
    intro l
    induction l with
    | nil => rfl
    | cons _ _ ih => exact ih
  rw [hrun] at hn
  cases hn

end P300
