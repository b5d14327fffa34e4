import Mathlib.Algebra.Order.Field.Rat
import Mathlib.Data.List.Find
import Mathlib.Data.List.ReduceOption
import P300.Basic

/-!
# Order blocks

`chento_v3/strategy/math.py`: pivots that are confirmed some bars later, the order blocks that a
break of structure leaves behind, the bars that fill them, and the distance from an entry to the
nearest unfilled one in its way. The blocks are made once for a whole frame and then read at the
index of each bar.
-/

namespace P300

/-- The prices of a bar; `nan` is `none`. -/
structure SmcBar where
  open_ : Option ℚ
  high : Option ℚ
  low : Option ℚ
  close : Option ℚ
  deriving DecidableEq

/-! ## Floats with `nan` -/

/-- `a > b`, false on `nan` -/
def gtNan (a b : Option ℚ) : Bool :=
  match a, b with
  | some a, some b => a > b
  | _, _ => false

/-- `a >= b`, false on `nan` -/
def geNan (a b : Option ℚ) : Bool :=
  match a, b with
  | some a, some b => a ≥ b
  | _, _ => false

/-- `ndarray.max()` -/
def maxNan (window : List (Option ℚ)) : Option ℚ :=
  if window.any Option.isNone then none else window.reduceOption.max?

/-- `ndarray.min()` -/
def minNan (window : List (Option ℚ)) : Option ℚ :=
  if window.any Option.isNone then none else window.reduceOption.min?

/-! ## Pivots -/

/-- `piv_high` and `piv_low` -/
structure Pivots where
  high : Bool
  low : Bool

/-- `bars[start:stop]` -/
def barSlice (bars : List SmcBar) (start stop : ℕ) : List SmcBar := (bars.take stop).drop start

/-- The body of the loop of `detect_pivots`; `n` is positive. -/
def pivotsAt (bars : List SmcBar) (n i : ℕ) : Pivots :=
  if n ≤ i ∧ i + n < bars.length then
    let h := bars[i]?.bind SmcBar.high
    let l := bars[i]?.bind SmcBar.low
    let left := barSlice bars (i - n) i
    let right := barSlice bars (i + 1) (i + n + 1)
    ⟨gtNan h (maxNan (left.map SmcBar.high)) && geNan h (maxNan (right.map SmcBar.high)),
      gtNan (minNan (left.map SmcBar.low)) l && geNan (minNan (right.map SmcBar.low)) l⟩
  else ⟨false, false⟩

/-- The columns that `detect_pivots` adds. -/
def detectPivots (bars : List SmcBar) (n : ℕ) : List Pivots :=
  (List.range bars.length).map (pivotsAt bars n)

/-! ## Blocks -/

inductive BlockDirection
  | bull
  | bear
  deriving DecidableEq, Repr

structure OrderBlock where
  idxCreated : ℕ
  idxOrigin : ℕ
  direction : BlockDirection
  zoneLow : Option ℚ
  zoneHigh : Option ℚ
  idxFilled : Option ℕ
  deriving DecidableEq

/-- The locals of the scan of `detect_order_blocks`, without `trend`, which nothing reads; an index
of -1 is `none`. -/
structure BosScan where
  lastSh : Option ℚ := none
  lastShIdx : Option ℕ := none
  lastSl : Option ℚ := none
  lastSlIdx : Option ℕ := none
  obs : List OrderBlock := []

/-- A pivot that is `n` bars old is known. -/
def BosScan.confirm (bars : List SmcBar) (pivots : List Pivots) (n i : ℕ) (s : BosScan) : BosScan :=
  if n ≤ i then
    match bars[i - n]?, pivots[i - n]? with
    | some bar, some piv =>
      let s := if piv.high then { s with lastSh := bar.high, lastShIdx := some (i - n) } else s
      if piv.low then { s with lastSl := bar.low, lastSlIdx := some (i - n) } else s
    | _, _ => s
  else s

/-- Whether a candle goes against the break. -/
def SmcBar.against (bar : SmcBar) (direction : BlockDirection) : Bool :=
  match direction with
  | .bull => gtNan bar.open_ bar.close
  | .bear => gtNan bar.close bar.open_

/-- `best`: the newest bar of the leg before `i` that goes against the break. -/
def originIdx (bars : List SmcBar) (i : ℕ) (legStart : Option ℕ)
    (direction : BlockDirection) : Option ℕ :=
  ((List.range i).drop (legStart.getD 0)).reverse.find? fun j => bars[j]?.any fun bar =>
    bar.against direction

/-- The block that a break at `i` leaves. -/
def originBlock (bars : List SmcBar) (i : ℕ) (legStart : Option ℕ) (direction : BlockDirection) :
    Option OrderBlock :=
  (originIdx bars i legStart direction).map fun best =>
    ⟨i, best, direction, bars[best]?.bind SmcBar.low, bars[best]?.bind SmcBar.high, none⟩

def BosScan.breakUp (bars : List SmcBar) (i : ℕ) (s : BosScan) : BosScan :=
  if gtNan (bars[i]?.bind SmcBar.close) s.lastSh then
    { s with obs := s.obs ++ (originBlock bars i s.lastSlIdx .bull).toList, lastSh := none }
  else s

def BosScan.breakDown (bars : List SmcBar) (i : ℕ) (s : BosScan) : BosScan :=
  if gtNan s.lastSl (bars[i]?.bind SmcBar.close) then
    { s with obs := s.obs ++ (originBlock bars i s.lastShIdx .bear).toList, lastSl := none }
  else s

/-- The body of the scan. -/
def BosScan.step (bars : List SmcBar) (pivots : List Pivots) (n : ℕ) (s : BosScan)
    (i : ℕ) : BosScan :=
  ((s.confirm bars pivots n i).breakUp bars i).breakDown bars i

/-- Whether a bar fills the block. -/
def OrderBlock.filledAt (ob : OrderBlock) (bars : List SmcBar) (j : ℕ) : Bool :=
  match ob.direction with
  | .bull => geNan ob.zoneHigh (bars[j]?.bind SmcBar.low)
  | .bear => geNan (bars[j]?.bind SmcBar.high) ob.zoneLow

/-- The loop that marks the fills, for one block. -/
def OrderBlock.markFill (bars : List SmcBar) (ob : OrderBlock) : OrderBlock :=
  { ob with idxFilled := ((List.range bars.length).drop ob.idxCreated).find? (ob.filledAt bars) }

/-- `detect_order_blocks` -/
def detectOrderBlocks (bars : List SmcBar) (pivots : List Pivots) (n : ℕ) : List OrderBlock :=
  ((List.range bars.length).foldl (BosScan.step bars pivots n) {}).obs.map
    (OrderBlock.markFill bars)

/-- The blocks of a frame. -/
def orderBlocks (bars : List SmcBar) (n : ℕ) : List OrderBlock :=
  detectOrderBlocks bars (detectPivots bars n) n

/-! ## The nearest block -/

/-- Filled at or before a bar. -/
def OrderBlock.filledBy (ob : OrderBlock) (i : ℕ) : Bool := ob.idxFilled.any (· ≤ i)

/-- The edge of the block that is in the way. -/
def OrderBlock.edge? (ob : OrderBlock) (entry : ℚ) (direction : Direction) : Option ℚ :=
  if direction = .long then
    if ob.direction = .bear then ob.zoneLow.filter fun z => z > entry else none
  else if ob.direction = .bull then ob.zoneHigh.filter fun z => z < entry else none

/-- The edges of the unfilled blocks that are in the way. -/
def resistEdges (entry : ℚ) (direction : Direction) (obs : List OrderBlock) (idxNow : ℕ) : List ℚ :=
  (obs.filter fun ob => ob.idxCreated ≤ idxNow && !ob.filledBy idxNow).filterMap fun ob =>
    ob.edge? entry direction

/-- `nearest_resist_ob_distance_R`; infinity is `none`. -/
def nearestResistObDistanceR (entry : ℚ) (direction : Direction) (risk : ℚ) (obs : List OrderBlock)
    (idxNow : ℕ) : Except String (Option ℚ) :=
  let edges := resistEdges entry direction obs idxNow
  let nearest := if direction = .long then edges.min? else edges.max?
  match nearest with
  | none => .ok none
  | some z =>
    if risk = 0 then .error "ZeroDivisionError"
    else .ok (some ((if direction = .long then z - entry else entry - z) / risk))

/-- What a bar knows of the blocks: those created up to it, without the fill index, and whether they
are filled by then. -/
def knownBlocks (obs : List OrderBlock) (i : ℕ) : List (OrderBlock × Bool) :=
  (obs.filter fun ob => ob.idxCreated ≤ i).map fun ob =>
    ({ ob with idxFilled := none }, ob.filledBy i)

variable {bars more : List SmcBar} {n i j : ℕ}

/-! ## More bars -/

theorem barSlice_append {start stop : ℕ} (h : stop ≤ bars.length) :
    barSlice (bars ++ more) start stop = barSlice bars start stop := by
  rw [barSlice, barSlice, List.take_append_of_le_length h]

/-- A pivot is the same once all the bars it needs are there. -/
theorem pivotsAt_append (h : i + n < bars.length) :
    pivotsAt (bars ++ more) n i = pivotsAt bars n i := by
  have hlen : i + n < (bars ++ more).length := by rw [List.length_append]; omega
  have hcond : (n ≤ i ∧ i + n < (bars ++ more).length) = (n ≤ i ∧ i + n < bars.length) :=
    propext (and_congr_right fun _ => iff_of_true hlen h)
  rw [pivotsAt, pivotsAt, List.getElem?_append_left (by omega), barSlice_append (by omega),
    barSlice_append (by omega)]
  simp only [hcond]

theorem getElem?_detectPivots (bars : List SmcBar) (n i : ℕ) :
    (detectPivots bars n)[i]? = if i < bars.length then some (pivotsAt bars n i) else none := by
  rw [detectPivots, List.getElem?_map]
  by_cases h : i < bars.length <;> simp [h]

theorem confirm_append (hi : i < bars.length) (s : BosScan) :
    s.confirm (bars ++ more) (detectPivots (bars ++ more) n) n i =
      s.confirm bars (detectPivots bars n) n i := by
  unfold BosScan.confirm
  by_cases hn : n ≤ i
  · have hpivots : (detectPivots (bars ++ more) n)[i - n]? = (detectPivots bars n)[i - n]? := by
      rw [getElem?_detectPivots, getElem?_detectPivots, if_pos (by rw [List.length_append]; omega),
        if_pos (by omega), pivotsAt_append (by omega)]
    rw [if_pos hn, if_pos hn, hpivots, List.getElem?_append_left (by omega)]
  · rw [if_neg hn, if_neg hn]

theorem originIdx_lt {legStart : Option ℕ} {direction : BlockDirection}
    (h : originIdx bars i legStart direction = some j) : j < i :=
  List.mem_range.mp (List.mem_of_mem_drop (List.mem_reverse.mp (List.mem_of_find?_eq_some h)))

theorem originBlock_append (hi : i ≤ bars.length) (legStart : Option ℕ)
    (direction : BlockDirection) :
    originBlock (bars ++ more) i legStart direction = originBlock bars i legStart direction := by
  have hidx : originIdx (bars ++ more) i legStart direction =
      originIdx bars i legStart direction := by
    refine List.find?_congr fun j hj => ?_
    have hlt : j < i := List.mem_range.mp (List.mem_of_mem_drop (List.mem_reverse.mp hj))
    rw [List.getElem?_append_left (by omega)]
  rw [originBlock, originBlock, hidx]
  refine Option.map_congr fun best hbest => ?_
  have hlt : best < i := originIdx_lt hbest
  rw [List.getElem?_append_left (by omega)]

theorem step_append (hi : i < bars.length) (s : BosScan) :
    s.step (bars ++ more) (detectPivots (bars ++ more) n) n i =
      s.step bars (detectPivots bars n) n i := by
  unfold BosScan.step BosScan.breakUp BosScan.breakDown
  rw [confirm_append hi, originBlock_append hi.le, originBlock_append hi.le,
    List.getElem?_append_left hi]

/-- A step adds blocks of its own index. -/
theorem step_obs (bars : List SmcBar) (pivots : List Pivots) (n i : ℕ) (s : BosScan) :
    ∃ new, (s.step bars pivots n i).obs = s.obs ++ new ∧ ∀ ob ∈ new, ob.idxCreated = i := by
  have hblock : ∀ legStart direction, ∀ ob ∈ (originBlock bars i legStart direction).toList,
      ob.idxCreated = i := by
    intro legStart direction ob hob
    obtain ⟨best, -, rfl⟩ := Option.map_eq_some_iff.mp (Option.mem_toList.mp hob)
    rfl
  have hconfirm : (s.confirm bars pivots n i).obs = s.obs := by
    unfold BosScan.confirm
    split
    · split
      · dsimp only
        split <;> split <;> rfl
      · rfl
    · rfl
  have hup : ∀ s : BosScan, ∃ new, (s.breakUp bars i).obs = s.obs ++ new ∧
      ∀ ob ∈ new, ob.idxCreated = i := by
    intro s
    unfold BosScan.breakUp
    split
    · exact ⟨_, rfl, hblock _ _⟩
    · exact ⟨[], (List.append_nil _).symm, by simp⟩
  have hdown : ∀ s : BosScan, ∃ new, (s.breakDown bars i).obs = s.obs ++ new ∧
      ∀ ob ∈ new, ob.idxCreated = i := by
    intro s
    unfold BosScan.breakDown
    split
    · exact ⟨_, rfl, hblock _ _⟩
    · exact ⟨[], (List.append_nil _).symm, by simp⟩
  obtain ⟨up, hobs, hupIdx⟩ := hup (s.confirm bars pivots n i)
  obtain ⟨down, hobs', hdownIdx⟩ := hdown ((s.confirm bars pivots n i).breakUp bars i)
  refine ⟨up ++ down, by rw [BosScan.step, hobs', hobs, hconfirm, List.append_assoc],
    fun ob hob => ?_⟩
  exact (List.mem_append.mp hob).elim (hupIdx ob) (hdownIdx ob)

theorem foldl_obs (bars : List SmcBar) (pivots : List Pivots) (n : ℕ) (l : List ℕ) (s : BosScan) :
    ∃ new, (l.foldl (BosScan.step bars pivots n) s).obs = s.obs ++ new ∧
      ∀ ob ∈ new, ob.idxCreated ∈ l := by
  induction l generalizing s with
  | nil => exact ⟨[], (List.append_nil _).symm, by simp⟩
  | cons i l ih =>
    obtain ⟨new, hnew, hidx⟩ := step_obs bars pivots n i s
    obtain ⟨rest, hrest, hmem⟩ := ih (s.step bars pivots n i)
    refine ⟨new ++ rest, by rw [List.foldl_cons, hrest, hnew, List.append_assoc], fun ob hob => ?_⟩
    rcases List.mem_append.mp hob with hob | hob
    · exact hidx ob hob ▸ List.mem_cons_self
    · exact List.mem_cons_of_mem i (hmem ob hob)

/-- The blocks of a longer frame are those of the frame and blocks of later bars, apart from the
fills. -/
theorem scan_append (bars more : List SmcBar) (n : ℕ) :
    ∃ later, ((List.range (bars ++ more).length).foldl
        (BosScan.step (bars ++ more) (detectPivots (bars ++ more) n) n) {}).obs =
      ((List.range bars.length).foldl (BosScan.step bars (detectPivots bars n) n) {}).obs ++ later ∧
      ∀ ob ∈ later, bars.length ≤ ob.idxCreated := by
  rw [List.length_append, List.range_add, List.foldl_append]
  have hsame : (List.range bars.length).foldl
        (BosScan.step (bars ++ more) (detectPivots (bars ++ more) n) n) {} =
      (List.range bars.length).foldl (BosScan.step bars (detectPivots bars n) n) {} :=
    List.foldl_ext _ _ _ fun s i hi => step_append (List.mem_range.mp hi) s
  rw [hsame]
  obtain ⟨later, hlater, hmem⟩ := foldl_obs (bars ++ more) (detectPivots (bars ++ more) n) n
    ((List.range more.length).map (bars.length + ·))
    ((List.range bars.length).foldl (BosScan.step bars (detectPivots bars n) n) {})
  refine ⟨later, hlater, fun ob hob => ?_⟩
  obtain ⟨k, -, hk⟩ := List.mem_map.mp (hmem ob hob)
  omega

/-- Whether a block is filled by then does not depend on later bars. -/
theorem filledBy_append (ob : OrderBlock) (hi : i < bars.length) :
    (ob.markFill (bars ++ more)).filledBy i = (ob.markFill bars).filledBy i := by
  have hfirst : ((List.range bars.length).drop ob.idxCreated).find? (ob.filledAt (bars ++ more)) =
      ((List.range bars.length).drop ob.idxCreated).find? (ob.filledAt bars) := by
    refine List.find?_congr fun j hj => ?_
    have hlt : j < bars.length := List.mem_range.mp (List.mem_of_mem_drop hj)
    rw [OrderBlock.filledAt, OrderBlock.filledAt, List.getElem?_append_left hlt]
  unfold OrderBlock.markFill OrderBlock.filledBy
  dsimp only
  rw [List.length_append, List.range_add, List.drop_append, List.find?_append, hfirst]
  cases ((List.range bars.length).drop ob.idxCreated).find? (ob.filledAt bars) with
  | some j => rfl
  | none =>
    -- found among the later bars only
    rw [Option.none_or, Option.any_none]
    cases hlater : ((((List.range more.length).map (bars.length + ·)).drop
        (ob.idxCreated - (List.range bars.length).length)).find? (ob.filledAt (bars ++ more))) with
    | none => rfl
    | some j =>
      obtain ⟨k, -, rfl⟩ :=
        List.mem_map.mp (List.mem_of_mem_drop (List.mem_of_find?_eq_some hlater))
      rw [Option.any_some, decide_eq_false_iff_not]
      omega

theorem knownBlocks_append (hi : i < bars.length) :
    knownBlocks (orderBlocks (bars ++ more) n) i = knownBlocks (orderBlocks bars n) i := by
  obtain ⟨later, hscan, hlater⟩ := scan_append bars more n
  have hnone : (later.map (OrderBlock.markFill (bars ++ more))).filter
      (fun ob => ob.idxCreated ≤ i) = [] := by
    refine List.filter_eq_nil_iff.mpr fun ob hob => ?_
    obtain ⟨ob', hob', rfl⟩ := List.mem_map.mp hob
    have hle : bars.length ≤ (ob'.markFill (bars ++ more)).idxCreated := hlater ob' hob'
    simpa using hi.trans_le hle
  unfold knownBlocks orderBlocks detectOrderBlocks
  rw [hscan, List.map_append, List.filter_append, hnone, List.append_nil, List.filter_map,
    List.filter_map, List.map_map, List.map_map]
  exact List.map_congr_left fun ob _ => Prod.ext rfl (filledBy_append ob hi)

theorem resistEdges_eq (entry : ℚ) (direction : Direction) (obs : List OrderBlock) (i : ℕ) :
    resistEdges entry direction obs i =
      ((knownBlocks obs i).filter fun known => !known.2).filterMap fun known =>
        known.1.edge? entry direction := by
  rw [resistEdges, knownBlocks, List.filter_map, List.filterMap_map, List.filter_filter]
  simp only [Function.comp_def, Bool.and_comm]
  rfl

/-- The distance reads what the bar knows. -/
theorem nearestResistObDistanceR_congr {obs obs' : List OrderBlock}
    (h : knownBlocks obs i = knownBlocks obs' i)
    (entry : ℚ) (direction : Direction) (risk : ℚ) :
    nearestResistObDistanceR entry direction risk obs i =
      nearestResistObDistanceR entry direction risk obs' i := by
  rw [nearestResistObDistanceR, nearestResistObDistanceR, resistEdges_eq, resistEdges_eq, h]

/-- What the blocks of a frame say at a bar does not depend on the bars after it. -/
theorem order_blocks_causal (bars more : List SmcBar) (n i : ℕ) (hi : i < bars.length) :
    knownBlocks (orderBlocks (bars ++ more) n) i = knownBlocks (orderBlocks bars n) i ∧
    ∀ entry direction risk,
      nearestResistObDistanceR entry direction risk (orderBlocks (bars ++ more) n) i =
        nearestResistObDistanceR entry direction risk (orderBlocks bars n) i :=
  ⟨knownBlocks_append hi, nearestResistObDistanceR_congr (knownBlocks_append hi)⟩

/-- A break of structure over a pivot, and a bar that fills the block of its leg. -/
def brokenPivot : List SmcBar × List SmcBar :=
  ([⟨some 10, some 20, some 10, some 20⟩, ⟨some 20, some 30, some 15, some 20⟩,
    ⟨some 20, some 25, some 10, some 15⟩, ⟨some 26, some 40, some 26, some 35⟩],
    [⟨some 35, some 35, some 20, some 20⟩])

theorem order_blocks_causal_broken_pivot :
    knownBlocks (orderBlocks brokenPivot.1 1) 3 = [(⟨3, 2, .bull, some 10, some 25, none⟩, false)] ∧
    knownBlocks (orderBlocks (brokenPivot.1 ++ brokenPivot.2) 1) 3 =
      knownBlocks (orderBlocks brokenPivot.1 1) 3 :=
  ⟨by decide +kernel, (order_blocks_causal brokenPivot.1 brokenPivot.2 1 3 (by decide)).1⟩

end P300
