import Mathlib.Data.Int.ConditionallyCompleteOrder
import Mathlib.Data.List.Nodup
import Mathlib.Data.List.Perm.Basic
import Mathlib.Data.Rat.Defs
import P300.Basic

/-!
# The scheduled-exit backstop

`botlib.close_due_trades` goes over the open trades of a variant once and closes those whose exit
time has passed, each through the closer of its own strategy. A price read or a closer may raise;
the loop goes on and reports at its end. Both act on a world `σ`, which is all that they read and
write.
-/

namespace P300

/-! ## The loop -/

/-- What `datetime.fromisoformat` makes of the column `exit_time`. -/
inductive ExitTime
  /-- `NULL` or the empty text. -/
  | missing
  /-- A text that raises `ValueError`. -/
  | malformed (text : String)
  /-- Without a time zone, taken as UTC. -/
  | naive (t : Time)
  | aware (t : Time) (utcoffset : Int)

def ExitTime.exitDt : ExitTime → Option Time
  | missing => none
  | malformed _ => none
  | naive t => some t
  | aware t utcoffset => some (t - utcoffset)

/-- The columns that `close_due_trades` selects of an open trade. -/
structure BackstopRow where
  id : String
  asset : String
  exitTime : ExitTime
  strategy : String

/-- The open paper trades of a variant; `id` is the primary key. -/
structure OpenTrades where
  rows : List BackstopRow
  nodup : (rows.map (·.id)).Nodup

/-- What a row has against its name in a `BackstopRefused`: trade id, strategy, reason. -/
abbrev BackstopFailure := String × String × String

variable {σ ε : Type}

structure BackstopEnv (σ ε : Type) where
  /-- `closers.get(strategy)`, called with the trade id, the price and the reason. -/
  closers : String → Option (String → ℚ → String → σ → Except ε Unit × σ)
  /-- `price_feed.get_current_price` -/
  getCurrentPrice : String → σ → Except ε (Option ℚ) × σ
  /-- `repr` of an exception -/
  repr : ε → String

/-- What the loop carries. The skipped trades and the calls of closers are what it logs. -/
structure BackstopState (σ : Type) where
  world : σ
  closed : List String := []
  refused : List BackstopFailure := []
  errors : List BackstopFailure := []
  skipped : List String := []
  calls : List (String × ℚ × String) := []

/-- `botlib.BackstopRefused` -/
structure BackstopRefused where
  closed : List String
  refused : List BackstopFailure
  errors : List BackstopFailure
  variantId : String

/-- The text of the exception. -/
def BackstopRefused.message (e : BackstopRefused) : String :=
  let failed := "; ".intercalate <| (e.refused ++ e.errors).map fun failure =>
    failure.1 ++ " " ++ failure.2.1 ++ ": " ++ failure.2.2
  "backstop left " ++ toString (e.refused.length + e.errors.length) ++ " due trade(s) open in " ++
    e.variantId ++ ": " ++ failed

/-- The reason of a refusal. -/
def noCloser : String :=
  "no closer for this strategy, refusing to book it at the trades.py defaults"

/-- The body of the loop. -/
def BackstopState.trade (env : BackstopEnv σ ε) (now : Time) (s : BackstopState σ)
    (t : BackstopRow) :
    BackstopState σ :=
  match t.exitTime.exitDt with
  | none => s
  | some exitDt =>
    if now < exitDt then s
    else match env.closers t.strategy with
    | none => { s with refused := s.refused ++ [(t.id, t.strategy, noCloser)] }
    | some close =>
      match env.getCurrentPrice t.asset s.world with
      | (.error e, world) =>
        { s with world := world, errors := s.errors ++ [(t.id, t.strategy, env.repr e)] }
      | (.ok none, world) => { s with world := world, skipped := s.skipped ++ [t.id] }
      | (.ok (some price), world) =>
        let s := { s with calls := s.calls ++ [(t.id, price, "scheduled_exit")] }
        match close t.id price "scheduled_exit" world with
        | (.error e, world) =>
          { s with world := world, errors := s.errors ++ [(t.id, t.strategy, env.repr e)] }
        | (.ok _, world) => { s with world := world, closed := s.closed ++ [t.id] }

/-- All rows, from a world in which nothing was tried. -/
def backstopLoop (env : BackstopEnv σ ε) (now : Time) (rows : List BackstopRow) (world : σ) :
    BackstopState σ :=
  rows.foldl (BackstopState.trade env now) { world := world }

/-- `botlib.close_due_trades` -/
def closeDueTrades (env : BackstopEnv σ ε) (variantId : String) (now : Time) (opens : OpenTrades)
    (world : σ) : Except BackstopRefused (List String) × BackstopState σ :=
  let s := backstopLoop env now opens.rows world
  (if s.refused ≠ [] ∨ s.errors ≠ [] then .error ⟨s.closed, s.refused, s.errors, variantId⟩
    else .ok s.closed, s)

/-! ## One trade -/

/-- The exit time of a trade has passed. -/
def BackstopRow.Due (now : Time) (t : BackstopRow) : Prop :=
  ∃ exitDt ∈ t.exitTime.exitDt, exitDt ≤ now

instance (now : Time) (t : BackstopRow) : Decidable (t.Due now) :=
  inferInstanceAs (Decidable (∃ exitDt ∈ t.exitTime.exitDt, exitDt ≤ now))

/-- Where a due trade ends up. -/
inductive Landing
  | closed
  | refused
  | errored (why : String)
  | skipped

/-- What becomes of a due trade that is tried in a world. -/
def landing (env : BackstopEnv σ ε) (world : σ) (t : BackstopRow) : Landing :=
  match env.closers t.strategy with
  | none => .refused
  | some close =>
    match env.getCurrentPrice t.asset world with
    | (.error e, _) => .errored (env.repr e)
    | (.ok none, _) => .skipped
    | (.ok (some price), world) =>
      match close t.id price "scheduled_exit" world with
      | (.error e, _) => .errored (env.repr e)
      | (.ok _, _) => .closed

/-- The trade in the list of its landing. -/
def BackstopState.land (s : BackstopState σ) (t : BackstopRow) : Landing → BackstopState σ
  | .closed => { s with closed := s.closed ++ [t.id] }
  | .refused => { s with refused := s.refused ++ [(t.id, t.strategy, noCloser)] }
  | .errored why => { s with errors := s.errors ++ [(t.id, t.strategy, why)] }
  | .skipped => { s with skipped := s.skipped ++ [t.id] }

/-- The trade stands in the list of its landing. -/
def BackstopState.Landed (s : BackstopState σ) (t : BackstopRow) : Landing → Prop
  | .closed => t.id ∈ s.closed
  | .refused => (t.id, t.strategy, noCloser) ∈ s.refused
  | .errored why => (t.id, t.strategy, why) ∈ s.errors
  | .skipped => t.id ∈ s.skipped

/-- All ids that the loop has put into one of its lists. -/
def BackstopState.ids (s : BackstopState σ) : List String :=
  s.closed ++ s.refused.map Prod.fst ++ s.errors.map Prod.fst ++ s.skipped

section Step

variable {env : BackstopEnv σ ε} {now : Time} {s : BackstopState σ} {t t' : BackstopRow}
  {l : Landing}

theorem landed_land (s : BackstopState σ) (t : BackstopRow) (l : Landing) :
    (s.land t l).Landed t l := by
  cases l with
  | closed | refused | errored | skipped =>
    exact List.mem_append_right _ (List.mem_singleton_self _)

theorem BackstopState.Landed.land (h : s.Landed t l) (t' : BackstopRow) (l' : Landing) :
    (s.land t' l').Landed t l := by
  cases l <;> cases l' <;> first | exact h | exact List.mem_append_left _ h

theorem ids_land (s : BackstopState σ) (t : BackstopRow) (l : Landing) :
    (s.land t l).ids.Perm (s.ids ++ [t.id]) := by
  rw [List.perm_iff_count]
  intro a
  cases l with
  | closed | refused | errored | skipped =>
    simp only [BackstopState.ids, BackstopState.land, List.map_append, List.map_cons, List.map_nil,
      List.count_append]
    omega

theorem calls_land (s : BackstopState σ) (t : BackstopRow) (l : Landing) :
    (s.land t l).calls = s.calls := by
  cases l <;> rfl

theorem trade_of_not_due (h : ¬ t.Due now) : s.trade env now t = s := by
  rw [BackstopState.trade]
  cases hexit : t.exitTime.exitDt with
  | none => rfl
  | some exitDt =>
    have hlt : now < exitDt := by
      by_contra hle
      exact h ⟨exitDt, hexit, not_lt.mp hle⟩
    exact if_pos hlt

/-- A due trade lands where it must, after one call of its closer or none. -/
theorem trade_due (env : BackstopEnv σ ε) (s : BackstopState σ) (h : t.Due now) :
    ∃ world calls, s.trade env now t =
      ({ s with world := world, calls := s.calls ++ calls } : BackstopState σ).land t
        (landing env s.world t) ∧
    (calls = [] ∨ (env.closers t.strategy).isSome ∧
      ∃ price, calls = [(t.id, price, "scheduled_exit")]) := by
  obtain ⟨exitDt, hexit, hle⟩ := h
  rw [BackstopState.trade, hexit, landing]
  dsimp only
  rw [if_neg (not_lt.mpr hle)]
  cases env.closers t.strategy with
  | none => exact ⟨s.world, [], by rw [List.append_nil]; rfl, .inl rfl⟩
  | some close =>
    dsimp only
    rcases env.getCurrentPrice t.asset s.world with ⟨price, world⟩
    cases price with
    | error e => exact ⟨world, [], by rw [List.append_nil]; rfl, .inl rfl⟩
    | ok price =>
      cases price with
      | none => exact ⟨world, [], by rw [List.append_nil]; rfl, .inl rfl⟩
      | some price =>
        dsimp only
        rcases close t.id price "scheduled_exit" world with ⟨result, world⟩
        cases result with
        | error e => exact ⟨world, _, rfl, .inr ⟨rfl, price, rfl⟩⟩
        | ok _ => exact ⟨world, _, rfl, .inr ⟨rfl, price, rfl⟩⟩

end Step

/-! ## The run -/

section Run

variable {env : BackstopEnv σ ε} {now : Time} {s : BackstopState σ} {t : BackstopRow} {l : Landing}

theorem BackstopState.Landed.trade (h : s.Landed t l) (t' : BackstopRow) :
    (s.trade env now t').Landed t l := by
  by_cases hdue : t'.Due now
  · obtain ⟨world, calls, htrade, _⟩ := trade_due env s hdue
    have hsame :
        ({ s with world := world, calls := s.calls ++ calls } : BackstopState σ).Landed t l := by
      cases l <;> exact h
    rw [htrade]
    exact hsame.land t' _
  · rwa [trade_of_not_due hdue]

theorem BackstopState.Landed.foldl (h : s.Landed t l) (rows : List BackstopRow) :
    (rows.foldl (BackstopState.trade env now) s).Landed t l := by
  induction rows generalizing s with
  | nil => exact h
  | cons t' rows ih => exact ih (h.trade t')

def dueTrades (now : Time) (rows : List BackstopRow) : List BackstopRow := rows.filter (·.Due now)

theorem dueTrades_cons_of_due (h : t.Due now) (rows : List BackstopRow) :
    dueTrades now (t :: rows) = t :: dueTrades now rows :=
      List.filter_cons_of_pos (decide_eq_true h)

theorem dueTrades_cons_of_not_due (h : ¬ t.Due now) (rows : List BackstopRow) :
    dueTrades now (t :: rows) = dueTrades now rows :=
  List.filter_cons_of_neg fun hdue => h (of_decide_eq_true hdue)

theorem ids_foldl_trade (env : BackstopEnv σ ε) (now : Time) (rows : List BackstopRow)
    (s : BackstopState σ) :
    (rows.foldl (BackstopState.trade env now) s).ids.Perm
      (s.ids ++ (dueTrades now rows).map (·.id)) := by
  induction rows generalizing s with
  | nil => exact List.Perm.of_eq (List.append_nil _).symm
  | cons t rows ih =>
    refine (ih _).trans ?_
    by_cases hdue : t.Due now
    · obtain ⟨world, calls, htrade, _⟩ := trade_due env s hdue
      rw [htrade, dueTrades_cons_of_due hdue, List.map_cons, ← List.singleton_append,
        ← List.append_assoc]
      exact (ids_land _ t _).append_right _
    · rw [trade_of_not_due hdue, dueTrades_cons_of_not_due hdue]

theorem calls_foldl_trade (env : BackstopEnv σ ε) (now : Time) (rows : List BackstopRow)
    (s : BackstopState σ) :
    ∃ calls, (rows.foldl (BackstopState.trade env now) s).calls = s.calls ++ calls ∧
      (calls.map Prod.fst).Sublist
        (((dueTrades now rows).filter fun t => (env.closers t.strategy).isSome).map (·.id)) := by
  induction rows generalizing s with
  | nil => exact ⟨[], (List.append_nil _).symm, List.Sublist.refl _⟩
  | cons t rows ih =>
    obtain ⟨later, hlater, hsub⟩ := ih (s.trade env now t)
    by_cases hdue : t.Due now
    · obtain ⟨world, calls, htrade, hcalls⟩ := trade_due env s hdue
      refine ⟨calls ++ later, ?_, ?_⟩
      · rw [List.foldl_cons, hlater, htrade, calls_land, List.append_assoc]
      · rw [dueTrades_cons_of_due hdue, List.filter_cons]
        rcases hcalls with rfl | ⟨hcloser, price, rfl⟩
        · split
          · exact hsub.cons _
          · exact hsub
        · rw [if_pos hcloser]
          exact hsub.cons_cons _
    · refine ⟨later, ?_, ?_⟩
      · rw [List.foldl_cons, hlater, trade_of_not_due hdue]
      · rwa [dueTrades_cons_of_not_due hdue]

/-- What the price reads and the closers keep of the world, a trade keeps. -/
theorem BackstopState.keeps_trade {P : σ → Prop}
    (hprice : ∀ asset world, P world → P (env.getCurrentPrice asset world).2)
    (hclose : ∀ strategy, ∀ close ∈ env.closers strategy, ∀ tid price reason world, P world →
      P (close tid price reason world).2) (h : P s.world) (t : BackstopRow) :
    P (s.trade env now t).world := by
  rw [BackstopState.trade]
  split
  · exact h
  split
  · exact h
  split
  · exact h
  next close hcloser =>
  have hworld := hprice t.asset _ h
  split
  · next heq => rwa [heq] at hworld
  · next heq => rwa [heq] at hworld
  · next price world heq =>
    rw [heq] at hworld
    have hclosed := hclose _ close hcloser t.id price "scheduled_exit" world hworld
    dsimp only
    split
    · next heq => rwa [heq] at hclosed
    · next heq => rwa [heq] at hclosed

theorem BackstopState.keeps_foldl {P : σ → Prop}
    (hprice : ∀ asset world, P world → P (env.getCurrentPrice asset world).2)
    (hclose : ∀ strategy, ∀ close ∈ env.closers strategy, ∀ tid price reason world, P world →
      P (close tid price reason world).2) (h : P s.world) (rows : List BackstopRow) :
    P (rows.foldl (BackstopState.trade env now) s).world := by
  induction rows generalizing s with
  | nil => exact h
  | cons t rows ih => exact ih (keeps_trade hprice hclose h t)

/-- What the backstop promises of the trades that are due. -/
structure TriesEveryDue (env : BackstopEnv σ ε) (variantId : String) (now : Time)
    (opens : OpenTrades) (world : σ) (result : Except BackstopRefused (List String))
    (s : BackstopState σ) : Prop where
  /-- At most one call of a closer for a trade, and only for one that is due. -/
  calls_nodup : (s.calls.map Prod.fst).Nodup
  calls_due : ∀ call ∈ s.calls, ∃ t ∈ opens.rows, t.id = call.1 ∧ t.Due now ∧
    env.closers t.strategy ≠ none
  /-- Every id that is due is in one of the four lists, and in no other. -/
  partition : s.ids.Perm ((opens.rows.filter (·.Due now)).map (·.id))
  ids_nodup : s.ids.Nodup
  /-- The list tells what became of the trade when its turn came, whatever the ones before it
  raised. -/
  landed : ∀ before t after, opens.rows = before ++ t :: after → t.Due now →
    s.Landed t (landing env (backstopLoop env now before world).world t)
  result : result = if s.refused = [] ∧ s.errors = [] then .ok s.closed
    else .error ⟨s.closed, s.refused, s.errors, variantId⟩

theorem backstop_tries_every_due_once (env : BackstopEnv σ ε) (variantId : String) (now : Time)
    (opens : OpenTrades) (world : σ) :
    TriesEveryDue env variantId now opens world (closeDueTrades env variantId now opens world).1
      (closeDueTrades env variantId now opens world).2 := by
  have hids := ids_foldl_trade env now opens.rows { world := world }
  have hdue : ((dueTrades now opens.rows).map (·.id)).Nodup :=
    opens.nodup.sublist (List.filter_sublist.map _)
  obtain ⟨calls, hcalls, hsub⟩ := calls_foldl_trade env now opens.rows { world := world }
  have hcalls : (closeDueTrades env variantId now opens world).2.calls = calls := hcalls
  refine ⟨?_, fun call hcall => ?_, hids, hids.nodup_iff.mpr hdue,
    fun before t after hrows ht => ?_, ?_⟩
  · rw [hcalls]
    exact (opens.nodup.sublist ((List.filter_sublist.trans List.filter_sublist).map _)).sublist hsub
  · rw [hcalls] at hcall
    obtain ⟨t, ht, hid⟩ := List.mem_map.mp (hsub.subset (List.mem_map_of_mem hcall))
    obtain ⟨hdue, hcloser⟩ := List.mem_filter.mp ht
    obtain ⟨hmem, hdue⟩ := List.mem_filter.mp hdue
    exact ⟨t, hmem, hid, of_decide_eq_true hdue, Option.isSome_iff_ne_none.mp hcloser⟩
  · change (backstopLoop env now opens.rows world).Landed t _
    rw [backstopLoop, hrows, List.foldl_append, List.foldl_cons, ← backstopLoop]
    refine BackstopState.Landed.foldl ?_ after
    obtain ⟨world', calls, htrade, _⟩ := trade_due env (backstopLoop env now before world) ht
    rw [htrade]
    exact landed_land _ t _
  · rw [closeDueTrades]
    dsimp only
    by_cases hnone : (backstopLoop env now opens.rows world).refused = [] ∧
        (backstopLoop env now opens.rows world).errors = []
    · rw [if_pos hnone, if_neg (by simp [hnone])]
    · rw [if_neg hnone, if_pos (not_and_or.mp hnone)]

end Run

end P300
