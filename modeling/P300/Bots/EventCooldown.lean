import Mathlib.Algebra.Order.Field.Rat
import P300.Basic
import P300.Lib.Cooldown

/-!
# Cooldowns of events

`squeeze_bull/strategy/math.py` thins the flush events of an hourly history,
`chento_v3/strategy/math.py` the fires of a gate in both directions together. Both bots do so at
each tick over a rolling window.
-/

namespace P300

/-! ## Flushes -/

/-- `FLUSH_THRESHOLD` -/
def flushThreshold : ℚ := -2 / 100

/-- `PRICE_DIR_THRESHOLD` -/
def priceDirThreshold : ℚ := -5 / 1000

/-- `COOLDOWN_HOURS` of the squeeze_bull bot -/
def flushCooldownHours : ℤ := 24

/-- `pct_change_n`; a missing value is `none`. -/
def pctChangeN (values : List (Option ℚ)) (n i : ℕ) : Option ℚ :=
  if i < n ∨ i ≥ values.length then none
  else match values[i - n]?.join, values[i]?.join with
    | some base, some value => if base ≤ 0 then none else some (value / base - 1)
    | _, _ => none

/-- `is_flush` -/
def isFlush (oiChg4h pxChg4h : Option ℚ) : Bool :=
  match oiChg4h, pxChg4h with
  | some oi, some px => oi ≤ flushThreshold ∧ px ≤ priceDirThreshold
  | _, _ => false

/-- The trigger at an index. -/
def flushAt (oiCloses closes : List (Option ℚ)) (i : ℕ) : Bool :=
  isFlush (pctChangeN oiCloses 4 i) (pctChangeN closes 4 i)

/-- The locals of `kept_flush_indices`. -/
structure FlushWalk where
  kept : List ℕ := []
  last : Option ℕ := none

def FlushWalk.step (oiCloses closes : List (Option ℚ)) (s : FlushWalk) (i : ℕ) : FlushWalk :=
  if ¬ flushAt oiCloses closes i then s
  else if s.last.any fun last : ℕ => (i : ℤ) - last < flushCooldownHours then s
  else ⟨s.kept ++ [i], some i⟩

/-- `kept_flush_indices` -/
def keptFlushIndices (oiCloses closes : List (Option ℚ)) : List ℕ :=
  ((List.range closes.length).foldl (FlushWalk.step oiCloses closes) {}).kept

/-- The flush events of a history. -/
def flushIndices (oiCloses closes : List (Option ℚ)) : List ℕ :=
  (List.range closes.length).filter (flushAt oiCloses closes)

/-! ## Fires in two directions -/

/-- The masks of the long and the short fires over one index. -/
@[ext]
structure FireMasks where
  long : List Bool
  short : List Bool
  aligned : long.length = short.length

/-- `any_fire.nonzero()[0]` -/
def FireMasks.fireIdx (m : FireMasks) : List ℕ :=
  (List.range m.long.length).filter fun i => m.long.getD i false || m.short.getD i false

/-- The rows from an index on. -/
def FireMasks.drop (m : FireMasks) (n : ℕ) : FireMasks where
  long := m.long.drop n
  short := m.short.drop n
  aligned := by rw [List.length_drop, List.length_drop, m.aligned]

/-- The locals of `_apply_combined_cooldown`. -/
structure FireWalk where
  keptL : List ℕ := []
  keptS : List ℕ := []
  last : ℤ := -1_000_000_000

def FireWalk.step (m : FireMasks) (cooldownBars : ℤ) (s : FireWalk) (i : ℕ) : FireWalk :=
  if i - s.last < cooldownBars then s
  else if m.long.getD i false then { s with keptL := s.keptL ++ [i], last := i }
  else if m.short.getD i false then { s with keptS := s.keptS ++ [i], last := i }
  else { s with last := i }

/-- `_apply_combined_cooldown` -/
def applyCombinedCooldown (m : FireMasks) (cooldownBars : ℤ) : FireMasks :=
  if m.fireIdx = [] then m
  else
    let s := m.fireIdx.foldl (FireWalk.step m cooldownBars) {}
    { long := (List.range m.long.length).map fun i => i ∈ s.keptL
      short := (List.range m.short.length).map fun i => i ∈ s.keptS
      aligned := by rw [List.length_map, List.length_map, m.aligned] }

/-! ## Both are thinnings -/

open Cooldown

theorem FlushWalk.kept_foldl (oiCloses closes : List (Option ℚ)) (l : List ℕ) (s : FlushWalk) :
    (l.foldl (FlushWalk.step oiCloses closes) s).kept =
      s.kept ++ thin flushCooldownHours s.last (l.filter (flushAt oiCloses closes)) := by
  induction l generalizing s with
  | nil => exact (List.append_nil _).symm
  | cons i l ih =>
    rw [List.foldl_cons, ih]
    unfold FlushWalk.step
    by_cases hflush : flushAt oiCloses closes i
    · rw [if_neg (not_not.mpr hflush), List.filter_cons_of_pos hflush]
      have hsilent : (s.last.any fun last : ℕ => (i : ℤ) - last < flushCooldownHours) = true ↔
          Silent flushCooldownHours s.last i := by
        simp [Silent, Option.any_eq_true]
      by_cases h : Silent flushCooldownHours s.last i
      · rw [if_pos (hsilent.mpr h), thin_cons_of_silent h]
      · rw [if_neg (hsilent.not.mpr h), thin_cons_of_not_silent h, List.append_assoc]
        rfl
    · rw [if_pos hflush, List.filter_cons_of_neg hflush]

theorem keptFlushIndices_eq (oiCloses closes : List (Option ℚ)) :
    keptFlushIndices oiCloses closes =
      thin flushCooldownHours none (flushIndices oiCloses closes) := by
  rw [keptFlushIndices, FlushWalk.kept_foldl]
  rfl

theorem mem_flushIndices {oiCloses closes : List (Option ℚ)} {i : ℕ} :
    i ∈ flushIndices oiCloses closes ↔ i < closes.length ∧ flushAt oiCloses closes i := by
  rw [flushIndices, List.mem_filter, List.mem_range]

theorem flushIndices_sorted (oiCloses closes : List (Option ℚ)) :
    (flushIndices oiCloses closes).Pairwise (· < ·) :=
  List.pairwise_lt_range.filter _

/-- The change over `n` bars is seen after `n` bars of a window. -/
theorem pctChangeN_drop (values : List (Option ℚ)) (start n i : ℕ) :
    pctChangeN (values.drop start) n i = if i < n then none
      else pctChangeN values n (start + i) := by
  unfold pctChangeN
  by_cases hi : i < n
  · rw [if_pos (.inl hi), if_pos hi]
  · rw [if_neg hi]
    by_cases hlen : i ≥ (values.drop start).length
    · rw [if_pos (.inr hlen), if_pos (.inr (by rw [List.length_drop] at hlen; omega))]
    · have hlen' : ¬ (start + i < n ∨ start + i ≥ values.length) := by
        rw [List.length_drop] at hlen
        omega
      rw [if_neg (not_or.mpr ⟨hi, hlen⟩), if_neg hlen', List.getElem?_drop, List.getElem?_drop,
        Nat.add_sub_assoc (Nat.le_of_not_lt hi)]

theorem mem_flushIndices_drop {oiCloses closes : List (Option ℚ)} {start i : ℕ} :
    i ∈ flushIndices (oiCloses.drop start) (closes.drop start) ↔
      4 ≤ i ∧ start + i ∈ flushIndices oiCloses closes := by
  rw [mem_flushIndices, mem_flushIndices, flushAt, flushAt, pctChangeN_drop, pctChangeN_drop,
    List.length_drop]
  by_cases hi : i < 4
  · rw [if_pos hi]
    exact iff_of_false (fun h => by cases h.2) fun h => by omega
  · rw [if_neg hi, if_neg hi]
    exact ⟨fun h => ⟨by omega, by omega, h.2⟩, fun h => ⟨by omega, h.2.2⟩⟩

variable {m : FireMasks} {cooldownBars : ℤ}

/-- The direction of a fire; one in both directions is long. -/
def FireMasks.isLong (m : FireMasks) (i : ℕ) : Bool := m.long.getD i false

theorem mem_fireIdx {i : ℕ} :
    i ∈ m.fireIdx ↔ i < m.long.length ∧ (m.long.getD i false || m.short.getD i false) = true := by
  rw [FireMasks.fireIdx, List.mem_filter, List.mem_range]

theorem fireIdx_sorted (m : FireMasks) : m.fireIdx.Pairwise (· < ·) :=
  List.pairwise_lt_range.filter _

theorem mem_fireIdx_drop {start i : ℕ} :
    i ∈ (m.drop start).fireIdx ↔ 0 ≤ i ∧ start + i ∈ m.fireIdx := by
  rw [mem_fireIdx, mem_fireIdx, FireMasks.drop]
  simp only [List.getD_eq_getElem?_getD, List.getElem?_drop, List.length_drop]
  exact ⟨fun h => ⟨Nat.zero_le _, by omega, h.2⟩, fun h => ⟨by omega, h.2.2⟩⟩

/-- The walk knows the last fire that was kept; before all indices, `-10**9` stands for none. -/
structure FireWalk.Follows (cooldownBars : ℤ) (s : FireWalk) (last : Option ℕ) : Prop where
  silent : ∀ i : ℕ, i - s.last < cooldownBars ↔ Silent cooldownBars last i

theorem FireWalk.follows_some (s : FireWalk) {k : ℕ} (h : s.last = k) :
    s.Follows cooldownBars (some k) where
  silent i := by simp [Silent, h]

theorem FireWalk.follows_none (h : cooldownBars ≤ 1_000_000_000) :
    ({} : FireWalk).Follows cooldownBars none where
  silent i := by
    simp only [Silent, Option.mem_def, reduceCtorEq, false_and, exists_false, iff_false, not_lt]
    omega

section

variable {s : FireWalk} {i : ℕ}

theorem FireWalk.step_silent (h : i - s.last < cooldownBars) :
    s.step m cooldownBars i = s := if_pos h

theorem FireWalk.step_long (h : ¬ i - s.last < cooldownBars) (hlong : m.isLong i) :
    s.step m cooldownBars i = ⟨s.keptL ++ [i], s.keptS, i⟩ := by
  rw [FireWalk.step, if_neg h]
  exact if_pos hlong

theorem FireWalk.step_short (h : ¬ i - s.last < cooldownBars) (hlong : ¬ m.isLong i)
    (hshort : m.short.getD i false) : s.step m cooldownBars i = ⟨s.keptL, s.keptS ++ [i], i⟩ := by
  rw [FireWalk.step, if_neg h]
  exact (if_neg hlong).trans (if_pos hshort)

end

theorem FireWalk.foldl_eq (l : List ℕ) (hl : ∀ i ∈ l, i ∈ m.fireIdx) {s : FireWalk}
    {last : Option ℕ} (H : s.Follows cooldownBars last) :
    (l.foldl (FireWalk.step m cooldownBars) s).keptL =
      s.keptL ++ (thin cooldownBars last l).filter m.isLong ∧
    (l.foldl (FireWalk.step m cooldownBars) s).keptS =
      s.keptS ++ (thin cooldownBars last l).filter fun i => !m.isLong i := by
  induction l generalizing s last with
  | nil => exact ⟨(List.append_nil _).symm, (List.append_nil _).symm⟩
  | cons i l ih =>
    obtain ⟨hi, hl⟩ := List.forall_mem_cons.mp hl
    rw [List.foldl_cons]
    by_cases h : Silent cooldownBars last i
    · rw [FireWalk.step_silent ((H.silent i).mpr h), thin_cons_of_silent h]
      exact ih hl H
    · have hnot := (H.silent i).not.mpr h
      rw [thin_cons_of_not_silent h]
      by_cases hlong : m.isLong i
      · obtain ⟨hL, hS⟩ := ih hl (FireWalk.follows_some ⟨s.keptL ++ [i], s.keptS, i⟩ rfl)
        rw [FireWalk.step_long hnot hlong, hL, hS, List.filter_cons_of_pos hlong,
          List.filter_cons_of_neg (by simp [hlong])]
        exact ⟨List.append_assoc .., rfl⟩
      · have hshort := ((Bool.or_eq_true ..).mp (mem_fireIdx.mp hi).2).resolve_left hlong
        obtain ⟨hL, hS⟩ := ih hl (FireWalk.follows_some ⟨s.keptL, s.keptS ++ [i], i⟩ rfl)
        rw [FireWalk.step_short hnot hlong hshort, hL, hS, List.filter_cons_of_neg hlong,
          List.filter_cons_of_pos (by simp [hlong])]
        exact ⟨rfl, List.append_assoc ..⟩

/-- A mask by its entries. -/
theorem eq_map_getD {l : List Bool} {g : ℕ → Bool} (h : ∀ i < l.length, l.getD i false = g i) :
    l = (List.range l.length).map g := by
  refine List.ext_getElem (by simp) fun i hi hi' => ?_
  rw [List.getElem_map, List.getElem_range, ← h i hi]
  simp [hi]

/-- What is kept of the masks. -/
theorem applyCombinedCooldown_eq (h : cooldownBars ≤ 1_000_000_000) (m : FireMasks) :
    (applyCombinedCooldown m cooldownBars).long = ((List.range m.long.length).map fun i =>
      decide (i ∈ thin cooldownBars none m.fireIdx) && m.isLong i) ∧
    (applyCombinedCooldown m cooldownBars).short = ((List.range m.long.length).map fun i =>
      decide (i ∈ thin cooldownBars none m.fireIdx) && !m.isLong i) := by
  rw [applyCombinedCooldown]
  split
  · next hnil =>
    have hnone : ∀ i < m.long.length, m.long.getD i false = false ∧
        m.short.getD i false = false := by
      intro i hi
      have hmem : i ∉ m.fireIdx := hnil ▸ List.not_mem_nil
      simpa [mem_fireIdx, hi] using hmem
    rw [hnil]
    refine ⟨eq_map_getD fun i hi => ?_, ?_⟩
    · simpa using (hnone i hi).1
    · rw [m.aligned]
      exact eq_map_getD fun i hi => by simpa using (hnone i (m.aligned ▸ hi)).2
  · obtain ⟨hL, hS⟩ := FireWalk.foldl_eq m.fireIdx (fun _ hi => hi)
      (FireWalk.follows_none h)
    dsimp only
    rw [hL, hS, ← m.aligned]
    refine ⟨List.map_congr_left fun i _ => ?_, List.map_congr_left fun i _ => ?_⟩
    · simp [List.mem_filter]
    · simp [List.mem_filter]

theorem fireIdx_applyCombinedCooldown (h : cooldownBars ≤ 1_000_000_000) (m : FireMasks) :
    (applyCombinedCooldown m cooldownBars).fireIdx = thin cooldownBars none m.fireIdx := by
  obtain ⟨hlong, hshort⟩ := applyCombinedCooldown_eq h m
  refine Sorted.eq_of_mem_iff (fireIdx_sorted _)
    ((fireIdx_sorted m).sublist (thin_sublist ..)) fun i => ?_
  rw [mem_fireIdx, hlong, hshort, List.length_map, List.length_range]
  constructor
  · rintro ⟨hi, hfires⟩
    by_contra hnot
    simp [hi, hnot] at hfires
  · intro hmem
    have hi := (mem_fireIdx.mp ((thin_sublist ..).subset hmem)).1
    refine ⟨hi, ?_⟩
    cases hdir : m.isLong i <;> simp [hi, hmem, hdir]

/-- Rows from a fresh fire on. -/
theorem applyCombinedCooldown_drop (h : cooldownBars ≤ 1_000_000_000) {start f : ℕ}
    (hstart : start ≤ f) (hf : f ∈ m.fireIdx)
    (hfresh : ∀ k ∈ m.fireIdx, k < f → cooldownBars ≤ (f : ℤ) - k) :
    (applyCombinedCooldown m cooldownBars).drop f =
      (applyCombinedCooldown (m.drop start) cooldownBars).drop (f - start) := by
  have hsync :=
    thin_window (fireIdx_sorted m) (fireIdx_sorted (m.drop start)) (fun i => mem_fireIdx_drop) hf
    hstart hfresh
  have hmem : ∀ j, f + j ∈ thin cooldownBars none m.fireIdx ↔
      f - start + j ∈ thin cooldownBars none (m.drop start).fireIdx := by
    intro j
    have hiff : f + j ∈ (thin cooldownBars none m.fireIdx).filter (f ≤ ·) ↔
        f + j ∈ ((thin cooldownBars none (m.drop start).fireIdx).map (start + ·)).filter
          (f ≤ ·) := by
      rw [hsync]
    rw [List.mem_filter, List.mem_filter, List.mem_map] at hiff
    refine ⟨fun hj => ?_, fun hj => (hiff.mpr ⟨⟨_, hj, by omega⟩, by simp⟩).1⟩
    obtain ⟨⟨i, hi, hij⟩, -⟩ := hiff.mp ⟨hj, by simp⟩
    rwa [show f - start + j = i by omega]
  have hdir : ∀ j, m.isLong (f + j) = (m.drop start).isLong (f - start + j) := by
    intro j
    unfold FireMasks.isLong FireMasks.drop
    rw [List.getD_eq_getElem?_getD, List.getD_eq_getElem?_getD, List.getElem?_drop,
      show start + (f - start + j) = f + j by omega]
  obtain ⟨hlong, hshort⟩ := applyCombinedCooldown_eq h m
  obtain ⟨hlong', hshort'⟩ := applyCombinedCooldown_eq h (m.drop start)
  have hlen : (m.drop start).long.length = m.long.length - start := List.length_drop
  refine FireMasks.ext ?_ ?_
  · change (applyCombinedCooldown m cooldownBars).long.drop f =
      (applyCombinedCooldown (m.drop start) cooldownBars).long.drop (f - start)
    rw [hlong, hlong', hlen]
    refine List.ext_getElem (by simp; omega) fun j hj hj' => ?_
    simp only [List.getElem_drop, List.getElem_map, List.getElem_range, hdir,
      decide_eq_decide.mpr (hmem j)]
  · change (applyCombinedCooldown m cooldownBars).short.drop f =
      (applyCombinedCooldown (m.drop start) cooldownBars).short.drop (f - start)
    rw [hshort, hshort', hlen]
    refine List.ext_getElem (by simp; omega) fun j hj hj' => ?_
    simp only [List.getElem_drop, List.getElem_map, List.getElem_range, hdir,
      decide_eq_decide.mpr (hmem j)]

/-- The thinning of a window agrees with that of the history from an event on that has no other one
in the cooldown before it; and any history is thinned to events a cooldown apart, in their own
direction, each dropped one in the cooldown of a kept one. -/
theorem cooldown_windows_agree :
    (∀ oiCloses closes : List (Option ℚ), ∀ start f, f ∈ flushIndices oiCloses closes →
      start + 4 ≤ f →
      (∀ k ∈ flushIndices oiCloses closes, k < f → flushCooldownHours ≤ (f : ℤ) - k) →
      (keptFlushIndices oiCloses closes).filter (f ≤ ·) =
        ((keptFlushIndices (oiCloses.drop start) (closes.drop start)).map (start + ·)).filter
          (f ≤ ·)) ∧
    (∀ (m : FireMasks) (cooldownBars : ℤ), cooldownBars ≤ 1_000_000_000 → ∀ start f, f ∈ m.fireIdx →
      start ≤ f → (∀ k ∈ m.fireIdx, k < f → cooldownBars ≤ (f : ℤ) - k) →
      (applyCombinedCooldown m cooldownBars).drop f =
        (applyCombinedCooldown (m.drop start) cooldownBars).drop (f - start)) ∧
    (∀ oiCloses closes : List (Option ℚ), Thinned flushCooldownHours (flushIndices oiCloses closes)
      (keptFlushIndices oiCloses closes)) ∧
    (∀ (m : FireMasks) (cooldownBars : ℤ), cooldownBars ≤ 1_000_000_000 →
      Thinned cooldownBars m.fireIdx (applyCombinedCooldown m cooldownBars).fireIdx ∧
      ∀ i ∈ (applyCombinedCooldown m cooldownBars).fireIdx,
        (applyCombinedCooldown m cooldownBars).long.getD i false = m.isLong i ∧
        (applyCombinedCooldown m cooldownBars).short.getD i false = !m.isLong i) := by
  refine ⟨fun oiCloses closes start f hf hstart hfresh => ?_,
    fun m cooldownBars hc start f hf hstart hfresh =>
      applyCombinedCooldown_drop hc hstart hf hfresh,
    fun oiCloses closes => ?_, fun m cooldownBars hc => ⟨?_, fun i hi => ?_⟩⟩
  · rw [keptFlushIndices_eq, keptFlushIndices_eq]
    exact thin_window (flushIndices_sorted ..) (flushIndices_sorted ..)
      (fun i => mem_flushIndices_drop) hf
      hstart hfresh
  · rw [keptFlushIndices_eq]
    exact thinned_thin _ (flushIndices_sorted ..)
  · rw [fireIdx_applyCombinedCooldown hc]
    exact thinned_thin _ (fireIdx_sorted m)
  · obtain ⟨hlong, hshort⟩ := applyCombinedCooldown_eq hc m
    rw [fireIdx_applyCombinedCooldown hc] at hi
    have hlt := (mem_fireIdx.mp ((thin_sublist ..).subset hi)).1
    rw [hlong, hshort]
    simp [hlt, hi]

/-- A fall of a tenth. -/
def tenthDown : List (Option ℚ) := (List.replicate 5 100 ++ List.replicate 3 90).map some

/-- The first flush of a fall; and a long and a short fire close together before a long one that is
fresh. The windows begin at the second bar. -/
theorem cooldown_windows_agree_second_bar :
    (keptFlushIndices tenthDown tenthDown).filter (5 ≤ ·) =
      ((keptFlushIndices (tenthDown.drop 1) (tenthDown.drop 1)).map (1 + ·)).filter (5 ≤ ·) ∧
    (applyCombinedCooldown ⟨[true, false, false, false, false, true, true],
        [false, true, false, false, false, false, false], rfl⟩ 3).drop 5 =
      (applyCombinedCooldown (FireMasks.drop ⟨[true, false, false, false, false, true, true],
        [false, true, false, false, false, false, false], rfl⟩ 1) 3).drop (5 - 1) :=
  ⟨cooldown_windows_agree.1 tenthDown tenthDown 1 5 (by decide +kernel) (by decide)
    (by decide +kernel), cooldown_windows_agree.2.1 _ 3 (by decide) 1 5 (by decide) (by decide)
      (by decide)⟩

end P300
