import Mathlib.Tactic.Linarith
import P300.Bots.Chento
import P300.Lib.Grid

/-!
# The exit of a chento trade and the ticks

What the sweeps make of a trade is what its bars make of it, one after the other: each sweep takes
up where the one before it stopped, and reads only final bars.
-/

namespace P300

/-! ## The bars alone -/

/-- The exit of a step, in the bar `ts`. -/
def StepAction.exit? (ts : Time) : StepAction → Option ChentoExit
  | .stopHit exitPrice _ => some ⟨.stopHit, exitPrice, some ts⟩
  | .targetHit exitPrice _ => some ⟨.targetHit, exitPrice, some ts⟩
  | _ => none

/-- What the bars make of a position. -/
structure Played where
  position : PositionState
  exit : Option ChentoExit := none
  /-- Those that were evaluated. -/
  bars : List Time := []

section play

variable (cfg : ChentoConfig) (direction : Direction) (f : Time → ChentoBar)

/-- A bar, unless the position is closed. The costs are left out: no exit depends on them. -/
def Played.step (p : Played) (ts : Time) : Played :=
  if p.exit.isSome then p
  else
    let step := evaluatePositionStep cfg direction 0 (f ts) p.position
    ⟨step.2, step.1.exit? ts, p.bars ++ [ts]⟩

def Played.play (p : Played) (l : List Time) : Played := l.foldl (Played.step cfg direction f) p

variable {cfg direction f} {p : Played}

variable (cfg direction) in
/-- What a bar can do; the costs are in the outcome alone. -/
theorem evaluatePositionStep_cases (bar : ChentoBar) (state : PositionState) :
    (∃ x, ∀ costR, ∃ r, evaluatePositionStep cfg direction costR bar state =
      (.stopHit x r, state)) ∨
      (∃ x, ∀ costR, ∃ r, evaluatePositionStep cfg direction costR bar state =
        (.targetHit x r, state)) ∨
      ∃ advR x y, ∀ costR, evaluatePositionStep cfg direction costR bar state =
        ladderStep cfg advR x y state := by
  simp only [evaluatePositionStep]
  split <;> split
  · exact .inl ⟨_, fun _ => ⟨_, rfl⟩⟩
  · split
    · exact .inr (.inl ⟨_, fun _ => ⟨_, rfl⟩⟩)
    · exact .inr (.inr ⟨_, _, _, fun _ => rfl⟩)
  · exact .inl ⟨_, fun _ => ⟨_, rfl⟩⟩
  · split
    · exact .inr (.inl ⟨_, fun _ => ⟨_, rfl⟩⟩)
    · exact .inr (.inr ⟨_, _, _, fun _ => rfl⟩)

variable (cfg direction) in
theorem evaluatePositionStep_costR (costR : ℚ) (bar : ChentoBar) (state : PositionState)
    (ts : Time) :
    (evaluatePositionStep cfg direction costR bar state).1.exit? ts =
      (evaluatePositionStep cfg direction 0 bar state).1.exit? ts ∧
    (evaluatePositionStep cfg direction costR bar state).2 =
      (evaluatePositionStep cfg direction 0 bar state).2 := by
  rcases evaluatePositionStep_cases cfg direction bar state with ⟨x, h⟩ | ⟨x, h⟩ | ⟨advR, x, y, h⟩
  · obtain ⟨r, hr⟩ := h costR
    obtain ⟨r₀, hr₀⟩ := h 0
    rw [hr, hr₀]
    exact ⟨rfl, rfl⟩
  · obtain ⟨r, hr⟩ := h costR
    obtain ⟨r₀, hr₀⟩ := h 0
    rw [hr, hr₀]
    exact ⟨rfl, rfl⟩
  · rw [h costR, h 0]
    exact ⟨rfl, rfl⟩

theorem play_of_exit (h : p.exit.isSome) (l : List Time) : p.play cfg direction f l = p := by
  induction l with
  | nil => rfl
  | cons ts l ih =>
    rw [Played.play, List.foldl_cons, Played.step, if_pos h]
    exact ih

/-- A bar on an open position, at whatever costs. -/
theorem play_cons (h : p.exit = none) (costR : ℚ) (ts : Time) (l : List Time) :
    p.play cfg direction f (ts :: l) =
      (Played.mk (evaluatePositionStep cfg direction costR (f ts) p.position).2
        ((evaluatePositionStep cfg direction costR (f ts) p.position).1.exit? ts)
        (p.bars ++ [ts])).play
          cfg direction f l := by
  obtain ⟨hexit, hpos⟩ :=
    evaluatePositionStep_costR cfg direction costR (f ts) p.position ts
  rw [hexit, hpos, Played.play, List.foldl_cons, Played.step, h]
  rfl

theorem play_append (l l' : List Time) :
    p.play cfg direction f (l ++ l') = (p.play cfg direction f l).play cfg direction f l' :=
  List.foldl_append

variable (cfg direction f) in
/-- The evaluated bars are the first ones, up to the one of the exit. -/
theorem bars_play (h : p.exit = none) (l : List Time) : ∃ l₁ l₂, l = l₁ ++ l₂ ∧
    (p.play cfg direction f l).bars = p.bars ++ l₁ ∧
      ((p.play cfg direction f l).exit = none → l₂ = []) ∧
    ∀ x, (p.play cfg direction f l).exit = some x → ∃ l₀ ts, l₁ = l₀ ++ [ts] ∧ x.bar = some ts := by
  induction l generalizing p with
  | nil =>
    exact ⟨[], [], rfl, (List.append_nil _).symm, fun _ => rfl,
      fun x hx => by cases h.symm.trans hx⟩
  | cons ts l ih =>
    rw [play_cons h 0]
    generalize hstep : evaluatePositionStep cfg direction 0 (f ts) p.position = step
    obtain ⟨action, position⟩ := step
    dsimp only
    by_cases hexit : action.exit? ts = none
    · obtain ⟨l₁, l₂, hl, hbars, hnone, hsome⟩ :=
        ih (p := ⟨position, action.exit? ts, p.bars ++ [ts]⟩) hexit
      refine ⟨ts :: l₁, l₂, congrArg (ts :: ·) hl, ?_, hnone, fun x hx => ?_⟩
      · rw [hbars, List.append_assoc]
        rfl
      · obtain ⟨l₀, u, rfl, hbar⟩ := hsome x hx
        exact ⟨ts :: l₀, u, rfl, hbar⟩
    · rw [play_of_exit (Option.isSome_iff_ne_none.mpr hexit)]
      refine ⟨[ts], l, rfl, rfl, fun hnone => absurd hnone hexit, fun x hx => ⟨[], ts, rfl, ?_⟩⟩
      cases action with
      | stopHit | targetHit =>
        cases hx
        rfl
      | ladderFired | nothing => exact absurd rfl hexit

end play

/-! ## The clock -/

theorem barUs_pos : 0 < barUs := by decide

theorem iterClosedBars_eq (a b : Time) : iterClosedBars a b = Grid.points barUs a b := rfl

theorem dvd_justClosed (now : Time) : barUs ∣ justClosed15mTs now := Int.dvd_mul_left ..

/-- The last bar that is walked is final. -/
theorem barFinalBy_justClosed_le (feed : ChentoFeed) (now : Time) :
    feed.barFinalBy (justClosed15mTs (now - feed.settle)) ≤ now := by
  have hle := Int.ediv_mul_le (now - feed.settle - barUs) barUs_pos.ne'
  rw [ChentoFeed.barFinalBy, justClosed15mTs]
  linarith

theorem justClosed_mono {now now' : Time} (h : now ≤ now') :
    justClosed15mTs now ≤ justClosed15mTs now' :=
  Int.mul_le_mul_of_nonneg_right (Int.ediv_le_ediv barUs_pos (Int.sub_le_sub_right h _))
    barUs_pos.le

/-! ## One sweep of a trade -/

section sweep

variable {cfg : ChentoConfig} {feed : ChentoFeed} {tick : ChentoTick} {currentPrice costR : ℚ}
  {f : Time → ChentoBar} {direction : Direction} {sched : Option Time} {entry : Time} {p : Played}

/-- The trade is where the bars have brought it. -/
structure ChentoTrade.Shows (direction : Direction) (sched : Option Time) (entry : Time)
    (p : Played) (trade : ChentoTrade) : Prop where
  direction : trade.direction = direction
  sched : trade.schedExit = sched
  exit : trade.exit = p.exit
  saved : ∃ walked, trade.state = some ⟨p.position, some entry, walked⟩

/-- The bars are there with their values, and the schedule is after them. -/
structure Readable (feed : ChentoFeed) (f : Time → ChentoBar) (sched : Option Time)
    (tick : ChentoTick) (l : List Time) : Prop where
  read : ∀ ts ∈ l, feed.barOhlcFor tick ts = some (f ts)
  early : ∀ ts ∈ l, ¬ ∃ d ∈ sched, ts ≥ d

theorem Readable.tail {ts : Time} {l : List Time} (h : Readable feed f sched tick (ts :: l)) :
    Readable feed f sched tick l :=
  ⟨fun u hu => h.read u (List.mem_cons_of_mem _ hu),
    fun u hu => h.early u (List.mem_cons_of_mem _ hu)⟩

/-- The loop over the bars, in memory and in the notes. -/
structure Swept.Shows (direction : Direction) (sched : Option Time) (entry : Time)
    (f : Time → ChentoBar) (now : Time) (before : List Time) (p : Played) (w : Swept) : Prop where
  trade : w.trade.Shows direction sched entry p
  position : w.position = p.position
  bars : p.bars = before ++ w.evals.map (·.ts)
  evals : ∀ e ∈ w.evals, e.now = now ∧ e.bar = f e.ts

theorem Swept.Shows.eval {before : List Time} {w : Swept}
    (H : w.Shows direction sched entry f tick.now before p) (ts : Time) :
    p.bars ++ [ts] = before ++ (w.evals ++ [BarEval.mk tick.now ts (f ts)]).map (·.ts) ∧
      ∀ e ∈ w.evals ++ [BarEval.mk tick.now ts (f ts)], e.now = tick.now ∧ e.bar = f e.ts := by
  refine ⟨?_, fun e he => ?_⟩
  · rw [H.bars, List.map_append, List.append_assoc]
    rfl
  · rcases List.mem_append.mp he with he | he
    · exact H.evals e he
    · rw [List.mem_singleton.mp he]
      exact ⟨rfl, rfl⟩

variable (cfg direction costR) in
/-- Only the ladder changes a position. -/
theorem evaluatePositionStep_position (bar : ChentoBar) (state : PositionState) :
    (∃ x y, (evaluatePositionStep cfg direction costR bar state).1 = .ladderFired x y) ∨
      (evaluatePositionStep cfg direction costR bar state).2 = state := by
  rcases evaluatePositionStep_cases cfg direction bar state with ⟨x, h⟩ | ⟨x, h⟩ | ⟨advR, x, y, h⟩
  · obtain ⟨r, hr⟩ := h costR
    exact .inr (congrArg Prod.snd hr)
  · obtain ⟨r, hr⟩ := h costR
    exact .inr (congrArg Prod.snd hr)
  · rw [h costR, ladderStep]
    split
    · exact .inl ⟨x, y, rfl⟩
    · exact .inr rfl

variable (cfg currentPrice costR) in
/-- The loop plays the bars. -/
theorem walkBars_shows {l : List Time} (hl : Readable feed f sched tick l)
    {before : List Time} {w : Swept} (hopen : p.exit = none)
    (H : w.Shows direction sched entry f tick.now before p) :
    (walkBars cfg feed tick currentPrice (some entry) costR l w).Shows direction sched entry f
      tick.now before
      (p.play cfg direction f l) := by
  induction l generalizing w p with
  | nil => exact H
  | cons ts l ih =>
    have hlate : ¬ ∃ d ∈ w.trade.schedExit, ts ≥ d := by
      rw [H.trade.sched]
      exact hl.early ts List.mem_cons_self
    obtain ⟨hbars, hevals⟩ := H.eval ts
    obtain ⟨walked, hsaved⟩ := H.trade.saved
    have hposition := evaluatePositionStep_position cfg costR direction (f ts) p.position
    rw [walkBars, if_neg hlate, hl.read ts List.mem_cons_self, Option.getD_some,
      H.trade.direction, H.position, play_cons hopen costR]
    dsimp only
    generalize evaluatePositionStep cfg direction costR (f ts) p.position = step at hposition ⊢
    obtain ⟨action, position⟩ := step
    dsimp only at hposition ⊢
    cases action with
    | stopHit exitPrice rOutcome =>
      rw [play_of_exit rfl]
      cases hposition.resolve_left (by rintro ⟨_, _, ⟨⟩⟩)
      exact ⟨⟨H.trade.direction, H.trade.sched, rfl, walked, hsaved⟩, rfl, hbars, hevals⟩
    | targetHit exitPrice rOutcome =>
      rw [play_of_exit rfl]
      cases hposition.resolve_left (by rintro ⟨_, _, ⟨⟩⟩)
      exact ⟨⟨H.trade.direction, H.trade.sched, rfl, walked, hsaved⟩, rfl, hbars, hevals⟩
    | ladderFired ladderEntry newStop =>
      have hexit : w.trade.exit = none := H.trade.exit.trans hopen
      refine ih (p := ⟨position, none, p.bars ++ [ts]⟩) hl.tail rfl
        ⟨⟨?_, ?_, ?_, ?_⟩, rfl, hbars, hevals⟩
      · exact H.trade.direction
      · exact H.trade.sched
      · exact hexit
      · exact ⟨some ts, rfl⟩
    | nothing =>
      cases hposition.resolve_left (by rintro ⟨_, _, ⟨⟩⟩)
      exact ih (p := ⟨p.position, none, p.bars ++ [ts]⟩) hl.tail rfl
        ⟨⟨H.trade.direction, H.trade.sched, H.trade.exit.trans hopen, walked, hsaved⟩, rfl,
          hbars, hevals⟩

/-- The trade is where the bars have brought it, and while it is open its next bar is the one after
`cursor`. -/
structure ChentoTrade.Reached (direction : Direction) (sched : Option Time) (entry : Time)
    (p : Played) (cursor : Time) (trade : ChentoTrade) : Prop where
  direction : trade.direction = direction
  sched : trade.schedExit = sched
  exit : trade.exit = p.exit
  saved : ∃ walked, trade.state = some ⟨p.position, some entry, walked⟩ ∧
    (p.exit = none → walked.getD entry = cursor)

theorem ChentoTrade.Reached.shows {cursor : Time} {trade : ChentoTrade}
    (H : trade.Reached direction sched entry p cursor) : trade.Shows direction sched entry p :=
  ⟨H.direction, H.sched, H.exit, H.saved.imp fun _ h => h.1⟩

theorem points_of_le_self {a b : Time} (h : b ≤ a) : Grid.points barUs a b = [] :=
  Grid.points_of_le barUs_pos (h.trans_lt (lt_add_of_pos_right a barUs_pos))

theorem le_of_points_eq_nil {a b : Time} (h : Grid.points barUs a b = []) (ha : barUs ∣ a)
    (hb : barUs ∣ b) :
    b ≤ a := by
  by_contra hlt
  have hmem := (Grid.mem_points barUs_pos).mpr ⟨Int.dvd_sub hb ha, not_le.mp hlt, le_rfl⟩
  rw [h] at hmem
  cases hmem

theorem lt_of_points_ne_nil {a b : Time} (h : Grid.points barUs a b ≠ []) : a < b := by
  obtain ⟨t, ht⟩ := List.exists_mem_of_ne_nil _ h
  obtain ⟨_, hlt, hle⟩ := (Grid.mem_points barUs_pos).mp ht
  exact hlt.trans_le hle

variable (cfg currentPrice) in
/-- A sweep plays the bars from the cursor on to the last closed one. -/
theorem sweepTrade_reached {trade : ChentoTrade} {cursor : Time} {state : SavedState}
    (hstate : trade.state = some state) (H : trade.Reached direction sched entry p cursor)
    (hopen : p.exit = none) (hgrid : barUs ∣ cursor)
    (hread : Readable feed f sched tick
      (Grid.points barUs cursor (justClosed15mTs (tick.now - feed.settle))))
    (hsched : ∀ d ∈ sched, tick.now < d) :
    ∃ p', p' = p.play cfg direction f
      (Grid.points barUs cursor (justClosed15mTs (tick.now - feed.settle))) ∧
      (sweepTrade cfg feed tick currentPrice trade state).trade.Reached direction sched entry p'
        (max cursor (justClosed15mTs (tick.now - feed.settle))) ∧
      p'.bars = p.bars ++ (sweepTrade cfg feed tick currentPrice trade state).evals.map (·.ts) ∧
      ∀ e ∈ (sweepTrade cfg feed tick currentPrice trade state).evals, e.now = tick.now ∧
        e.bar = f e.ts := by
  obtain ⟨walked, hsaved, hcursor⟩ := H.saved
  cases hstate.symm.trans hsaved
  set jc := justClosed15mTs (tick.now - feed.settle) with hjc
  have hfrom : ((walked.or (some entry)).getD (jc - barUs)) = cursor := by
    rw [← hcursor hopen]
    cases walked <;> rfl
  have hlate : ¬ ∃ d ∈ trade.schedExit, tick.now ≥ d := by
    rw [H.sched]
    rintro ⟨d, hd, hle⟩
    exact absurd hle (not_le.mpr (hsched d hd))
  refine ⟨_, rfl, ?_⟩
  rw [sweepTrade, ← hjc]
  dsimp only
  rw [hfrom, iterClosedBars_eq]
  by_cases hnil : Grid.points barUs cursor jc = []
  · -- no bar has closed since
    rw [hnil, walkBars, if_neg (by rw [H.exit, hopen]; exact Bool.false_ne_true), if_pos rfl,
      if_neg hlate, max_eq_left (le_of_points_eq_nil hnil hgrid (dvd_justClosed _))]
    exact ⟨H, (List.append_nil _).symm, fun e he => by cases he⟩
  · rw [if_neg hnil, max_eq_right (lt_of_points_ne_nil hnil).le]
    have hstart : (Swept.mk trade p.position 0 false []).Shows direction sched entry f
        tick.now p.bars p :=
      ⟨H.shows, rfl, (List.append_nil _).symm, fun e he => by cases he⟩
    have hw := walkBars_shows cfg currentPrice
      (cfg.costBpRt / 10000 * (p.position.entryPrice / p.position.risk)) hread hopen hstart
    generalize walkBars cfg feed tick currentPrice (some entry) _ _ _ = w at hw ⊢
    obtain ⟨walked', hsaved'⟩ := hw.trade.saved
    by_cases hexit : w.trade.exit.isSome
    · rw [if_pos hexit]
      refine ⟨⟨hw.trade.direction, hw.trade.sched, hw.trade.exit, walked', hsaved',
        fun hnone => ?_⟩, hw.bars, hw.evals⟩
      rw [hw.trade.exit, hnone] at hexit
      cases hexit
    · rw [if_neg hexit]
      refine ⟨⟨hw.trade.direction, hw.trade.sched, hw.trade.exit, some jc, ?_, fun _ => rfl⟩,
        hw.bars, hw.evals⟩
      rw [hw.position]

end sweep

/-! ## The sweep of all trades -/

namespace ChentoSys

/-- The evaluations for a trade. -/
def evalsOf (s : ChentoSys) (id : String) : List BarEval :=
  s.evals.filterMap fun e => if e.1 = id then some e.2 else none

section rows

variable {cfg : ChentoConfig} {feed : ChentoFeed} {tick : ChentoTick} {currentPrice : ℚ}
  {s : ChentoSys} {id : String} {row : String × ChentoTrade} {l : List (String × ChentoTrade)}

theorem filterMap_evals (id x : String) (l : List BarEval) :
    (l.map fun e => (x, e)).filterMap (fun e => if e.1 = id then some e.2 else none) = if x =
      id then l else [] := by
  induction l with
  | nil => split <;> rfl
  | cons e l ih =>
    rw [List.map_cons, List.filterMap_cons]
    split at ih <;> split <;> simp_all

variable (cfg feed tick currentPrice s) in
theorem sweepRow_other (h : row.1 ≠ id) :
    (s.sweepRow cfg feed tick currentPrice row).trades.get? id = s.trades.get? id ∧
      (s.sweepRow cfg feed tick currentPrice row).evalsOf id = s.evalsOf id := by
  rw [sweepRow]
  split
  · exact ⟨rfl, rfl⟩
  · refine ⟨(Dict.get?_set ..).trans (if_neg h.symm), ?_⟩
    rw [evalsOf, List.filterMap_append, filterMap_evals, if_neg h, List.append_nil]
    rfl

variable (cfg feed tick currentPrice s id) in
theorem sweepRow_self {trade : ChentoTrade} {state : SavedState}
    (hstate : trade.state = some state) :
    (s.sweepRow cfg feed tick currentPrice (id, trade)).trades.get? id =
        some (sweepTrade cfg feed tick currentPrice trade state).trade ∧
      (s.sweepRow cfg feed tick currentPrice (id, trade)).evalsOf id =
        s.evalsOf id ++ (sweepTrade cfg feed tick currentPrice trade state).evals := by
  rw [sweepRow, hstate]
  refine ⟨(Dict.get?_set ..).trans (if_pos rfl), ?_⟩
  rw [evalsOf, List.filterMap_append, filterMap_evals, if_pos rfl]
  rfl

variable (cfg feed tick currentPrice s) in
theorem foldl_others (h : id ∉ l.map Prod.fst) :
    (l.foldl (sweepRow cfg feed tick currentPrice) s).trades.get? id = s.trades.get? id ∧
      (l.foldl (sweepRow cfg feed tick currentPrice) s).evalsOf id = s.evalsOf id := by
  induction l generalizing s with
  | nil => exact ⟨rfl, rfl⟩
  | cons row l ih =>
    obtain ⟨hne, hrest⟩ := not_or.mp (mt List.mem_cons.mpr h)
    obtain ⟨htrades, hevals⟩ := sweepRow_other cfg feed tick currentPrice s (Ne.symm hne)
    obtain ⟨htrades', hevals'⟩ := ih (s.sweepRow cfg feed tick currentPrice row) hrest
    exact ⟨htrades'.trans htrades, hevals'.trans hevals⟩

variable (cfg feed tick currentPrice s) in
/-- A trade is swept once, whatever the other ones are. -/
theorem foldl_once {trade : ChentoTrade} {state : SavedState} (hl : (l.map Prod.fst).Nodup)
    (hmem : (id, trade) ∈ l) (hstate : trade.state = some state) :
    (l.foldl (sweepRow cfg feed tick currentPrice) s).trades.get? id =
        some (sweepTrade cfg feed tick currentPrice trade state).trade ∧
      (l.foldl (sweepRow cfg feed tick currentPrice) s).evalsOf id =
        s.evalsOf id ++ (sweepTrade cfg feed tick currentPrice trade state).evals := by
  obtain ⟨before, after, rfl⟩ := List.append_of_mem hmem
  rw [List.map_append, List.map_cons] at hl
  have hbefore : id ∉ before.map Prod.fst := fun h =>
    List.disjoint_of_nodup_append hl h List.mem_cons_self
  have hafter : id ∉ after.map Prod.fst := (List.nodup_cons.mp hl.of_append_right).1
  rw [List.foldl_append, List.foldl_cons]
  set s₁ := before.foldl (sweepRow cfg feed tick currentPrice) s
  have hs₁ : s₁.evalsOf id = s.evalsOf id := (foldl_others cfg feed tick currentPrice s hbefore).2
  obtain ⟨htrades, hevals⟩ := sweepRow_self cfg feed tick currentPrice s₁ id hstate
  obtain ⟨htrades', hevals'⟩ := foldl_others cfg feed tick currentPrice
    (s₁.sweepRow cfg feed tick currentPrice (id, trade)) hafter
  exact ⟨htrades'.trans htrades, hevals'.trans (hevals.trans (by rw [hs₁]))⟩

end rows

variable {cfg : ChentoConfig} {feed : ChentoFeed} {tick : ChentoTick} {s : ChentoSys} {id : String}
  {f : Time → ChentoBar} {direction : Direction} {sched : Option Time} {entry cursor : Time}
    {p : Played}

/-- The run is where the bars up to `cursor` have brought the trade, and it has evaluated those
alone. -/
structure Tracks (feed : ChentoFeed) (f : Time → ChentoBar) (id : String) (direction : Direction)
    (sched : Option Time) (entry : Time) (p : Played) (cursor : Time) (s : ChentoSys) : Prop where
  trade : ∃ trade, s.trades.get? id = some trade ∧ trade.Reached direction sched entry p cursor
  bars : p.bars = (s.evalsOf id).map (·.ts)
  evals : ∀ e ∈ s.evalsOf id, feed.barFinalBy e.ts ≤ e.now ∧ e.bar = f e.ts

variable (cfg s) in
theorem sweepOpenPositions_eq (hprice : ∃ x ∈ feed.price tick.now, 0 < x) :
    ∃ currentPrice, s.sweepOpenPositions cfg feed tick =
      (s.trades.entries.filter fun row => row.2.exit.isNone).foldl
        (sweepRow cfg feed tick currentPrice) s := by
  obtain ⟨x, hx, hpos⟩ := hprice
  refine ⟨x, ?_⟩
  rw [sweepOpenPositions, hx]
  exact if_neg (not_le.mpr hpos)

/-- A tick without a price changes nothing. -/
theorem sweepOpenPositions_of_not (hprice : ¬ ∃ x ∈ feed.price tick.now, 0 < x) :
    s.sweepOpenPositions cfg feed tick = s := by
  rw [sweepOpenPositions]
  cases hx : feed.price tick.now with
  | none => rfl
  | some x => exact if_pos (not_lt.mp fun hpos => hprice ⟨x, hx, hpos⟩)

/-- A closed trade is not swept. -/
theorem Tracks.sweep_closed (H : s.Tracks feed f id direction sched entry p cursor)
    (hexit : p.exit.isSome) (cursor' : Time) :
    (s.sweepOpenPositions cfg feed tick).Tracks feed f id direction sched entry p cursor' := by
  obtain ⟨trade, htrade, hreached⟩ := H.trade
  have hreached' : trade.Reached direction sched entry p cursor' :=
    ⟨hreached.direction, hreached.sched, hreached.exit, hreached.saved.imp fun _ h =>
      ⟨h.1, fun hnone => by rw [hnone] at hexit; cases hexit⟩⟩
  by_cases hprice : ∃ x ∈ feed.price tick.now, 0 < x
  · obtain ⟨currentPrice, heq⟩ := sweepOpenPositions_eq cfg s hprice
    have hnot : id ∉ (s.trades.entries.filter fun row => row.2.exit.isNone).map Prod.fst := by
      rintro hmem
      obtain ⟨row, hrow, rfl⟩ := List.mem_map.mp hmem
      obtain ⟨hentries, hnone⟩ := List.mem_filter.mp hrow
      cases ((s.trades.mem_entries_iff).mp hentries).symm.trans htrade
      rw [hreached.exit, Option.isNone_iff_eq_none] at hnone
      rw [hnone] at hexit
      cases hexit
    obtain ⟨htrades, hevals⟩ := foldl_others cfg feed tick currentPrice s hnot
    rw [heq]
    exact ⟨⟨trade, htrades.trans htrade, hreached'⟩, hevals ▸ H.bars, hevals ▸ H.evals⟩
  · rw [sweepOpenPositions_of_not hprice]
    exact ⟨⟨trade, htrade, hreached'⟩, H.bars, H.evals⟩

/-- The bars after the entry are in the table with their values as soon as they are final. -/
def Supplies (feed : ChentoFeed) (f : Time → ChentoBar) (entry : Time) : Prop :=
  ∀ ts now, barUs ∣ ts → entry < ts → feed.barFinalBy ts ≤ now → feed.table now ts = some (f ts)

/-- A final bar is read with its values, from the frame or from the table. -/
theorem barOhlcFor_eq {ts : Time} (hbars : Supplies feed f entry) (hgrid : barUs ∣ ts)
    (hentry : entry < ts) (hfinal : feed.barFinalBy ts ≤ tick.now) :
    feed.barOhlcFor tick ts = some (f ts) := by
  have hnow := hbars ts tick.now hgrid hentry hfinal
  rw [ChentoFeed.barOhlcFor]
  split
  · next cache _ =>
    split
    · next hcached => rw [hbars ts cache.builtAt hgrid hentry hcached.1, Option.some_or]
    · exact hnow
  · exact hnow

theorem barFinalBy_le {ts : Time} (h : ts ≤ justClosed15mTs (tick.now - feed.settle)) :
    feed.barFinalBy ts ≤ tick.now :=
  (add_le_add_left h _).trans (barFinalBy_justClosed_le feed tick.now)

theorem readable_points (hbars : Supplies feed f entry) (hsched : ∀ d ∈ sched, tick.now < d)
    (hgrid : barUs ∣ cursor) (hentry : entry ≤ cursor) :
    Readable feed f sched tick (Grid.points barUs cursor
      (justClosed15mTs (tick.now - feed.settle))) := by
  constructor
  · intro ts hts
    obtain ⟨hdvd, hlt, hle⟩ := (Grid.mem_points barUs_pos).mp hts
    have hts : barUs ∣ ts := by
      rw [← sub_add_cancel ts cursor]
      exact Int.dvd_add hdvd hgrid
    exact barOhlcFor_eq hbars hts (hentry.trans_lt hlt) (barFinalBy_le hle)
  · rintro ts hts ⟨d, hd, hle⟩
    obtain ⟨_, _, hts⟩ := (Grid.mem_points barUs_pos).mp hts
    have hfinal := barFinalBy_le hts
    rw [ChentoFeed.barFinalBy] at hfinal
    have hpos := barUs_pos
    have hsettle := feed.settle_nonneg
    have hnow := hsched d hd
    linarith

variable (cfg) in
/-- A sweep with a price plays the bars from the cursor on. -/
theorem Tracks.sweep_open (hbars : Supplies feed f entry) (hsched : ∀ d ∈ sched, tick.now < d)
    (hgrid : barUs ∣ cursor) (hentry : entry ≤ cursor) (hprice : ∃ x ∈ feed.price tick.now, 0 < x)
    (H : s.Tracks feed f id direction sched entry p cursor) (hopen : p.exit = none) :
    (s.sweepOpenPositions cfg feed tick).Tracks feed f id direction sched entry
      (p.play cfg direction f (Grid.points barUs cursor (justClosed15mTs (tick.now - feed.settle))))
      (max cursor (justClosed15mTs (tick.now - feed.settle))) := by
  obtain ⟨trade, htrade, hreached⟩ := H.trade
  obtain ⟨walked, hsaved, _⟩ := hreached.saved
  obtain ⟨currentPrice, heq⟩ := sweepOpenPositions_eq cfg s hprice
  obtain ⟨p', rfl, hreached', hplayed, hevals⟩ :=
    sweepTrade_reached cfg currentPrice hsaved hreached hopen hgrid
    (readable_points hbars hsched hgrid hentry) hsched
  have hmem : (id, trade) ∈ s.trades.entries.filter fun row => row.2.exit.isNone :=
    List.mem_filter.mpr ⟨s.trades.mem_entries_iff.mpr htrade, by rw [hreached.exit, hopen]; rfl⟩
  obtain ⟨htrade', hevals'⟩ := foldl_once cfg feed tick currentPrice s
    (s.trades.nodup.sublist (List.filter_sublist.map _)) hmem hsaved
  rw [← heq] at htrade' hevals'
  refine ⟨⟨_, htrade', hreached'⟩, ?_, fun e he => ?_⟩
  · rw [hplayed, H.bars, hevals', List.map_append]
  · rw [hevals'] at he
    rcases List.mem_append.mp he with he | he
    · exact H.evals e he
    · obtain ⟨hnow, hbar⟩ := hevals e he
      obtain ⟨l₁, l₂, hpoints, hl₁, _⟩ := bars_play cfg direction f hopen
        (Grid.points barUs cursor (justClosed15mTs (tick.now - feed.settle)))
      have hmem₁ : e.ts ∈ l₁ := by
        rw [List.append_cancel_left (hl₁.symm.trans hplayed)]
        exact List.mem_map_of_mem he
      have hts := (Grid.mem_points barUs_pos).mp (hpoints ▸ List.mem_append_left l₂ hmem₁)
      exact ⟨hnow ▸ barFinalBy_le hts.2.2, hbar⟩

/-! ## Runs -/

/-- The trade is where the bars after `start` have brought it. -/
structure PlayedTo (cfg : ChentoConfig) (feed : ChentoFeed) (f : Time → ChentoBar) (id : String)
    (direction : Direction) (sched : Option Time) (entry start : Time) (p : Played) (cursor : Time)
    (s : ChentoSys) : Prop where
  tracks : s.Tracks feed f id direction sched entry
    (p.play cfg direction f (Grid.points barUs start cursor)) cursor
  start_le : start ≤ cursor
  grid : barUs ∣ cursor

section runs

variable {start : Time}

theorem PlayedTo.sweep (hbars : Supplies feed f entry) (hsched : ∀ d ∈ sched, tick.now < d)
    (hstart : barUs ∣ start) (hentry : entry ≤ start) (hprice : ∃ x ∈ feed.price tick.now, 0 < x)
    (H : s.PlayedTo cfg feed f id direction sched entry start p cursor) :
    (s.sweepOpenPositions cfg feed tick).PlayedTo cfg feed f id direction sched entry start p
      (max cursor (justClosed15mTs (tick.now - feed.settle))) := by
  set jc := justClosed15mTs (tick.now - feed.settle) with hjc
  refine ⟨?_, H.start_le.trans (le_max_left ..), ?_⟩
  · rw [Grid.points_append barUs_pos (Int.dvd_sub H.grid hstart) H.start_le (le_max_left cursor jc),
      play_append]
    by_cases hexit : (p.play cfg direction f (Grid.points barUs start cursor)).exit.isSome
    · rw [play_of_exit hexit]
      exact H.tracks.sweep_closed hexit _
    · have hopen := Option.not_isSome_iff_eq_none.mp hexit
      have htracks :=
        H.tracks.sweep_open cfg hbars hsched H.grid (hentry.trans H.start_le) hprice hopen
      rcases le_total cursor jc with hle | hle
      · rw [max_eq_right hle]
        rwa [← hjc, max_eq_right hle] at htracks
      · rw [max_eq_left hle]
        rw [← hjc, max_eq_left hle] at htracks
        rw [points_of_le_self le_rfl]
        rwa [points_of_le_self hle] at htracks
  · rcases max_choice cursor jc with h | h <;> rw [h]
    · exact H.grid
    · exact dvd_justClosed _

/-- The last bar that closed by the last tick bounds the cursor, so a tick with a price catches
up. -/
theorem sweeps_playedTo (hbars : Supplies feed f entry) (hstart : barUs ∣ start)
    (hentry : entry ≤ start) {ticks : List ChentoTick} {now : Time}
    (hticks : ∀ t ∈ ticks, t.now ≤ now) (hsched : ∀ d ∈ sched, now < d)
    (hcursor : cursor ≤ max start (justClosed15mTs (now - feed.settle)))
    (H : s.PlayedTo cfg feed f id direction sched entry start p cursor) :
    ∃ cursor', cursor' ≤ max start (justClosed15mTs (now - feed.settle)) ∧
      (s.sweeps cfg feed ticks).PlayedTo cfg feed f id direction sched entry start p cursor' := by
  induction ticks generalizing s cursor with
  | nil => exact ⟨cursor, hcursor, H⟩
  | cons t ticks ih =>
    obtain ⟨ht, hrest⟩ := List.forall_mem_cons.mp hticks
    rw [sweeps, List.foldl_cons]
    by_cases hprice : ∃ x ∈ feed.price t.now, 0 < x
    · refine ih hrest ?_ (H.sweep hbars (fun d hd => ht.trans_lt (hsched d hd)) hstart
        hentry hprice)
      exact max_le hcursor ((justClosed_mono (Int.sub_le_sub_right ht _)).trans (le_max_right ..))
    · rw [sweepOpenPositions_of_not hprice]
      exact ih hrest hcursor H

/-- After a last tick with a price the bars are played up to the last one that has closed. -/
theorem sweeps_concat_playedTo (hbars : Supplies feed f entry) (hstart : barUs ∣ start)
    (hentry : entry ≤ start) {ticks : List ChentoTick} {last : ChentoTick}
    (hticks : (ticks ++ [last]).Pairwise fun t t' => t.now ≤ t'.now)
    (hsched : ∀ d ∈ sched, last.now < d) (hprice : ∃ x ∈ feed.price last.now, 0 < x)
    (H : s.PlayedTo cfg feed f id direction sched entry start p start) :
    (s.sweeps cfg feed (ticks ++ [last])).PlayedTo cfg feed f id direction sched entry start p
      (max start (justClosed15mTs (last.now - feed.settle))) := by
  have hnow : ∀ t ∈ ticks, t.now ≤ last.now := fun t ht =>
    (List.pairwise_append.mp hticks).2.2 t ht last (List.mem_singleton_self _)
  obtain ⟨cursor, hcursor, hmid⟩ :=
    sweeps_playedTo hbars hstart hentry hnow hsched (le_max_left ..) H
  have hrun := hmid.sweep hbars hsched hstart hentry hprice
  have hlast : max cursor (justClosed15mTs (last.now - feed.settle)) =
      max start (justClosed15mTs (last.now - feed.settle)) :=
    le_antisymm (max_le hcursor (le_max_right ..)) (max_le_max_right _ hmid.start_le)
  rw [hlast] at hrun
  rw [sweeps, List.foldl_append]
  exact hrun

end runs

theorem iterClosedBars_max (start stop : Time) :
    iterClosedBars start (max start stop) = iterClosedBars start stop := by
  rcases le_total start stop with h | h
  · rw [max_eq_right h]
  · rw [max_eq_left h, iterClosedBars_eq, iterClosedBars_eq, points_of_le_self le_rfl,
      points_of_le_self h]

/-- The exit of a trade. -/
def exitOf (s : ChentoSys) (id : String) : Option ChentoExit := (s.trades.get? id).bind (·.exit)

/-- The state in the notes of a trade, with its stop and its ladder. -/
def positionOf (s : ChentoSys) (id : String) : Option PositionState :=
  (s.trades.get? id).bind fun trade => trade.state.map (·.position)

theorem Tracks.exitOf_eq (H : s.Tracks feed f id direction sched entry p cursor) :
    s.exitOf id = p.exit := by
  obtain ⟨trade, htrade, hreached⟩ := H.trade
  rw [exitOf, htrade]
  exact hreached.exit

theorem Tracks.positionOf_eq (H : s.Tracks feed f id direction sched entry p cursor) :
    s.positionOf id = some p.position := by
  obtain ⟨trade, htrade, hreached⟩ := H.trade
  obtain ⟨walked, hsaved, _⟩ := hreached.saved
  rw [positionOf, htrade, Option.bind_some, hsaved]
  rfl

/-- The bars that a run has evaluated: all of them up to the exit, and each once. -/
theorem PlayedTo.evaluated {start : Time} (hopen : p.exit = none) (hfresh : p.bars = [])
    (H : s.PlayedTo cfg feed f id direction sched entry start p cursor) :
    (∀ x, s.exitOf id = some x → ∃ bar, x.bar = some bar ∧
        (s.evalsOf id).map (·.ts) = iterClosedBars start bar) ∧
      (s.exitOf id = none → (s.evalsOf id).map (·.ts) = iterClosedBars start cursor) := by
  obtain ⟨l₁, l₂, hpoints, hl₁, hnone, hsome⟩ :=
    bars_play cfg direction f hopen (Grid.points barUs start cursor)
  rw [hfresh, List.nil_append] at hl₁
  rw [H.tracks.exitOf_eq, ← H.tracks.bars, hl₁]
  refine ⟨fun x hx => ?_, fun h => ?_⟩
  · obtain ⟨l₀, bar, rfl, hbar⟩ := hsome x hx
    exact ⟨bar, hbar, Grid.eq_points_of_append barUs_pos hpoints⟩
  · rw [iterClosedBars_eq, hpoints, hnone h, List.append_nil]

/-- Before the first sweep. -/
theorem playedTo_start {trade : ChentoTrade} {position : PositionState} {walked : Option Time}
    (hevals : s.evals = []) (htrade : s.trades.get? id = some trade) (hopen : trade.exit = none)
    (hstate : trade.state = some ⟨position, some entry, walked⟩)
    (hgrid : barUs ∣ walked.getD entry) :
    s.PlayedTo cfg feed f id trade.direction trade.schedExit entry (walked.getD entry)
      ⟨position, none, []⟩
      (walked.getD entry) := by
  have hnil : s.evalsOf id = [] := by rw [evalsOf, hevals]; rfl
  refine ⟨?_, le_rfl, hgrid⟩
  rw [points_of_le_self le_rfl]
  refine ⟨⟨trade, htrade, rfl, rfl, hopen, walked, hstate, fun _ => rfl⟩, ?_, ?_⟩
  · rw [hnil]
    rfl
  · rw [hnil]
    exact fun e he => by cases he

/-- While the scheduled exit has not come, it is of no matter when the bot ticked: the ticks end in
the exit and in the state of one sweep at the last of them. They evaluate final bars only, and each
bar up to the exit once. -/
theorem ticks_independent {trade : ChentoTrade} {position : PositionState} {walked : Option Time}
    {ticks : List ChentoTick} (last once : ChentoTick) (hevals : s.evals = [])
    (htrade : s.trades.get? id = some trade) (hopen : trade.exit = none)
    (hstate : trade.state = some ⟨position, some entry, walked⟩) (hentry : barUs ∣ entry)
    (hwalked : ∀ w ∈ walked, barUs ∣ w ∧ entry ≤ w) (hbars : Supplies feed f entry)
    (hticks : (ticks ++ [last]).Pairwise fun t t' => t.now ≤ t'.now)
    (hsched : ∀ d ∈ trade.schedExit, last.now < d) (honce : once.now = last.now)
    (hprice : ∃ x ∈ feed.price last.now, 0 < x) :
    ((s.sweeps cfg feed (ticks ++ [last])).exitOf id =
      (s.sweepOpenPositions cfg feed once).exitOf id ∧
      (s.sweeps cfg feed (ticks ++ [last])).positionOf id =
        (s.sweepOpenPositions cfg feed once).positionOf id) ∧
    (∀ e ∈ (s.sweeps cfg feed (ticks ++ [last])).evalsOf id, feed.barFinalBy e.ts ≤ e.now ∧
      e.bar = f e.ts) ∧
    (∀ x, (s.sweeps cfg feed (ticks ++ [last])).exitOf id = some x → ∃ bar, x.bar = some bar ∧
      ((s.sweeps cfg feed (ticks ++ [last])).evalsOf id).map (·.ts) =
        iterClosedBars (walked.getD entry) bar) ∧
    ((s.sweeps cfg feed (ticks ++ [last])).exitOf id = none →
      ((s.sweeps cfg feed (ticks ++ [last])).evalsOf id).map (·.ts) =
        iterClosedBars (walked.getD entry) (justClosed15mTs (last.now - feed.settle))) := by
  set start := walked.getD entry
  obtain ⟨hgrid, hle⟩ : barUs ∣ start ∧ entry ≤ start := by
    cases walked with
    | none => exact ⟨hentry, le_rfl⟩
    | some w => exact hwalked w rfl
  have hbefore : s.PlayedTo cfg feed f id trade.direction trade.schedExit entry start
      ⟨position, none, []⟩ start :=
    playedTo_start hevals htrade hopen hstate hgrid
  -- each of the two runs has played the bars up to the last one that has closed
  have hrun := sweeps_concat_playedTo hbars hgrid hle hticks hsched hprice hbefore
  have honce' := hbefore.sweep hbars (by rwa [honce]) hgrid hle (by rwa [honce])
  rw [honce] at honce'
  obtain ⟨hexited, hrest⟩ := hrun.evaluated rfl rfl
  refine ⟨⟨?_, ?_⟩, hrun.tracks.evals, hexited, fun hnone => ?_⟩
  · rw [hrun.tracks.exitOf_eq, honce'.tracks.exitOf_eq]
  · rw [hrun.tracks.positionOf_eq, honce'.tracks.positionOf_eq]
  · rw [hrest hnone, iterClosedBars_max]

/-! The second bar after the entry touches the stop; from `outage` on there is no price. -/

def dipBars (ts : Time) : ChentoBar := if ts < 2 * barUs then ⟨101, 99, 100⟩ else ⟨101, 95, 97⟩

def dipFeed (outage : Time) : ChentoFeed where
  table now ts :=
    if ts + (barUs + 90_000_000) ≤ now then some (dipBars ts) else some ⟨100, 100, 100⟩
  price now := if now < outage then some 100 else none
  settle_nonneg := Int.natCast_nonneg 90_000_000

def dipPosition : PositionState where
  entryPrice := 100
  risk := 4
  stopPrice := 96
  targetPrice := 124
  risk_ne := four_ne_zero

def dipTrade : ChentoTrade :=
  ⟨.long, some 90_000_000_000, some ⟨dipPosition, some 0, none⟩, none, none⟩

def dipSys : ChentoSys where
  trades := Dict.empty.set "t" dipTrade

/-- The first bar has closed at the second tick, but is not settled yet. -/
def dipTicks : List ChentoTick :=
  [⟨1_000_000_000, none⟩, ⟨1_860_000_000, none⟩, ⟨2_790_000_000, none⟩]

def dipLast : ChentoTick := ⟨3_000_000_000, none⟩

theorem supplies_dipFeed (outage : Time) : Supplies (dipFeed outage) dipBars 0 :=
  fun _ _ _ _ h => if_pos h

theorem ticks_independent_dip :
    (dipSys.sweeps {} (dipFeed 4_000_000_000) (dipTicks ++ [dipLast])).exitOf "t" =
        (dipSys.sweepOpenPositions {} (dipFeed 4_000_000_000) dipLast).exitOf "t" ∧
      (dipSys.sweeps {} (dipFeed 4_000_000_000) (dipTicks ++ [dipLast])).positionOf "t" =
        (dipSys.sweepOpenPositions {} (dipFeed 4_000_000_000) dipLast).positionOf "t" :=
  (ticks_independent (f := dipBars) dipLast dipLast rfl (show dipSys.trades.get? "t" =
    some dipTrade from rfl)
    rfl rfl (Int.dvd_zero _) (fun w hw => by cases hw) (supplies_dipFeed _) (by decide)
      (by decide) rfl
    ⟨100, rfl, by decide +kernel⟩).1

/-- Without a price at the last tick one sweep there does nothing, while the ticks before it have
closed. -/
theorem not_ticks_independent :
    (Supplies (dipFeed 3_000_000_000) dipBars 0 ∧
      (dipTicks ++ [dipLast]).Pairwise (fun t t' => t.now ≤ t'.now) ∧
        ∀ d ∈ dipTrade.schedExit, dipLast.now < d) ∧
    (dipSys.sweeps {} (dipFeed 3_000_000_000) (dipTicks ++ [dipLast])).exitOf "t" =
      some ⟨.stopHit, 96, some (2 * barUs)⟩ ∧
    (dipSys.sweepOpenPositions {} (dipFeed 3_000_000_000) dipLast).exitOf "t" = none := by
  refine ⟨⟨supplies_dipFeed _, by decide, by decide⟩, ?_, ?_⟩
  · decide +kernel
  · decide +kernel

end ChentoSys

end P300
