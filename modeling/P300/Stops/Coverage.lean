import P300.Stops.Resume

/-!
# No minute is forgotten

The walk examines the rows that are stored when it comes by and saves the minutes without a valid
row as gaps. Between two rows the gap reaches from one minute after the first to one minute before
the second; when they are more than one and less than two minutes apart it is empty, and the whole
minute between them is lost. When no tick meets such rows, each minute up to the mark has been
examined with a valid row or lies in a saved gap.
-/

namespace P300

/-- Rows at `a` and `b` are at most one or at least two minutes apart. -/
def Spaced (a b : Int) : Prop := b - a ≤ minuteMs ∨ 2 * minuteMs ≤ b - a

instance : DecidableRel Spaced := fun _ _ => inferInstanceAs (Decidable (_ ∨ _))

/-- The minutes whose row is valid. -/
def examined (rows : List Candle) : List Int :=
  (rows.filter fun c => c.valid?.isSome).map (·.openTime)

theorem examined_subset {rows rows' : List Candle} (h : rows ⊆ rows') :
    examined rows ⊆ examined rows' :=
  List.map_subset _ (List.filter_subset _ h)

/-- The minute was examined or is in a gap. -/
def Accounted (ex : List Int) (gaps : List (Int × Int)) (m : Int) : Prop :=
  m ∈ ex ∨ Intervals.Covers gaps m

instance (ex : List Int) (gaps : List (Int × Int)) (m : Int) : Decidable (Accounted ex gaps m) :=
  inferInstanceAs (Decidable (_ ∨ _))

/-! ## One range -/

section range

variable {stop lo m : Int} {ex : List Int} {gaps G : List (Int × Int)}

/-- The gaps when the rows of a range are exhausted. -/
def passEnd (stop : Int) (st : Int × List (Int × Int)) : List (Int × Int) :=
  if st.1 ≤ stop then st.2 ++ [(st.1, stop)] else st.2

theorem subset_passRow (st : Int × List (Int × Int)) (c : Candle) : st.2 ⊆ (passRow st c).2 := by
  refine List.Subset.trans ?_ (List.subset_append_left ..)
  split
  · exact List.subset_append_left ..
  · exact List.Subset.refl _

theorem subset_passEnd (rows : List Candle) (st : Int × List (Int × Int)) :
    st.2 ⊆ passEnd stop (rows.foldl passRow st) := by
  induction rows generalizing st with
  | nil =>
    unfold passEnd
    split
    · exact List.subset_append_left ..
    · exact List.Subset.refl _
  | cons c rows ih => exact List.Subset.trans (subset_passRow st c) (ih _)

/-- A row that is not valid is a gap. -/
theorem covers_passRow_self {st : Int × List (Int × Int)} {c : Candle} (h : ¬ c.valid?.isSome) :
    Intervals.Covers (passRow st c).2 c.openTime := by
  refine ⟨(c.openTime, c.openTime), List.mem_append_right _ ?_, le_rfl, le_rfl⟩
  rw [if_neg h]
  exact List.mem_singleton_self _

/-- The stretch from the expected minute to one minute before the row is a gap. -/
theorem covers_passRow {st : Int × List (Int × Int)} {c : Candle} (h1 : st.1 ≤ m)
    (h2 : m ≤ c.openTime - minuteMs) : Intervals.Covers (passRow st c).2 m := by
  have hpos : (0 : Int) < minuteMs := by decide
  have hgt : c.openTime > st.1 := by omega
  refine ⟨(st.1, c.openTime - minuteMs), List.mem_append_left _ ?_, h1, h2⟩
  rw [if_pos hgt]
  exact List.mem_append_right _ (List.mem_singleton_self _)

/-- A whole minute between a covered point and a point in the same minute or the next one. -/
theorem covers_between {a b : Int} (ha : Intervals.Covers gaps a) (hb : Intervals.Covers gaps b)
    (hsub : gaps ⊆ G) (hclose : b ≤ a + minuteMs) (h1 : a ≤ m) (h2 : m ≤ b) :
    Intervals.Covers (mergeRanges G) m :=
  Intervals.covers_merge_between (by decide) (ha.mono hsub) (hb.mono hsub) hclose h1 h2

/-- The minutes between the row at `p` and the next one. -/
theorem covers_next {p : Int} {c : Candle} (hsp : Spaced p c.openTime)
    (hp : Intervals.Covers gaps p ∨ p + minuteMs ≤ lo ∨ p % minuteMs = 0)
    (hc : c.valid?.isSome → c.openTime % minuteMs = 0) (hm : m % minuteMs = 0) (hlo : lo ≤ m)
    (h1 : p < m) (h2 : m < c.openTime) (hG : (passRow (p + minuteMs, gaps) c).2 ⊆ G) :
    Intervals.Covers (mergeRanges G) m := by
  have hp' : m < p + minuteMs → Intervals.Covers (passRow (p + minuteMs, gaps) c).2 p := by
    intro hlt
    rcases hp with hcov | hle | hgrid
    · exact hcov.mono (subset_passRow (p + minuteMs, gaps) c)
    · omega
    · simp only [minuteMs] at hm hgrid hlt
      omega
  have hc' : c.openTime < m + minuteMs →
      Intervals.Covers (passRow (p + minuteMs, gaps) c).2 c.openTime := by
    intro hlt
    refine covers_passRow_self fun hv => ?_
    have hgrid := hc hv
    simp only [minuteMs] at hm hgrid hlt
    omega
  rcases hsp with hclose | hfar
  · -- at most one minute apart: both rows are malformed, and their gaps become one
    exact covers_between (hp' (by omega)) (hc' (by omega)) hG (by omega) h1.le h2.le
  · by_cases hbefore : m < p + minuteMs
    · have hgap : Intervals.Covers (passRow (p + minuteMs, gaps) c).2 (p + minuteMs) :=
        covers_passRow le_rfl (by omega)
      exact covers_between (hp' hbefore) hgap hG le_rfl h1.le hbefore.le
    · by_cases hafter : c.openTime < m + minuteMs
      · have hgap : Intervals.Covers (passRow (p + minuteMs, gaps) c).2 (c.openTime - minuteMs) :=
          covers_passRow (by dsimp only; omega) le_rfl
        exact covers_between hgap (hc' hafter) hG (by omega) (by omega) h2.le
      · exact Intervals.covers_merge
          ((covers_passRow (by dsimp only; omega) (by omega)).mono hG)

/-- The minutes between the row at `p`, the last one, and the end of the range. -/
theorem covers_last {p : Int} (hsp : Spaced p (stop + minuteMs))
    (hp : Intervals.Covers gaps p ∨ p + minuteMs ≤ lo ∨ p % minuteMs = 0) (hm : m % minuteMs = 0)
    (hlo : lo ≤ m) (h1 : p < m) (h2 : m ≤ stop) (hG : passEnd stop (p + minuteMs, gaps) ⊆ G) :
    Intervals.Covers (mergeRanges G) m := by
  have hle : p + minuteMs ≤ stop := by
    unfold Spaced at hsp
    omega
  rw [passEnd, if_pos hle] at hG
  have hend : Intervals.Covers (gaps ++ [(p + minuteMs, stop)]) (p + minuteMs) :=
    ⟨_, List.mem_append_right _ (List.mem_singleton_self _), le_rfl, hle⟩
  by_cases hbefore : m < p + minuteMs
  · rcases hp with hcov | hle' | hgrid
    · exact covers_between (hcov.mono (List.subset_append_left ..)) hend hG le_rfl h1.le hbefore.le
    · omega
    · simp only [minuteMs] at hm hgrid hbefore
      omega
  · have hgap : Intervals.Covers (gaps ++ [(p + minuteMs, stop)]) m :=
      ⟨_, List.mem_append_right _ (List.mem_singleton_self _), not_lt.mp hbefore, h2⟩
    exact Intervals.covers_merge (hgap.mono hG)

/-- Every whole minute after the row at `p` is examined or, after merging, in a gap. -/
theorem accounted_passRows {rows : List Candle} {p : Int}
    (hsp : (p :: (rows.map (·.openTime) ++ [stop + minuteMs])).IsChain Spaced)
    (hp : Intervals.Covers gaps p ∨ p + minuteMs ≤ lo ∨ p % minuteMs = 0) (hm : m % minuteMs = 0)
    (hlo : lo ≤ m) (h1 : p < m) (h2 : m ≤ stop)
    (hG : passEnd stop (rows.foldl passRow (p + minuteMs, gaps)) ⊆ G) :
    Accounted (examined rows) (mergeRanges G) m := by
  induction rows generalizing p gaps with
  | nil => exact .inr (covers_last (List.isChain_cons_cons.mp hsp).1 hp hm hlo h1 h2 hG)
  | cons c rows ih =>
    obtain ⟨hc, hsp⟩ := List.isChain_cons_cons.mp hsp
    have hG' : (passRow (p + minuteMs, gaps) c).2 ⊆ G :=
      List.Subset.trans (subset_passEnd rows _) hG
    rcases lt_trichotomy m c.openTime with hlt | rfl | hgt
    · exact .inr (covers_next hc hp grid_of_valid? hm hlo h1 hlt hG')
    · by_cases hv : c.valid?.isSome
      · exact .inl (List.mem_map_of_mem (List.mem_filter.mpr ⟨List.mem_cons_self, hv⟩))
      · exact .inr (Intervals.covers_merge ((covers_passRow_self hv).mono hG'))
    · have hself : Intervals.Covers (passRow (p + minuteMs, gaps) c).2 c.openTime ∨
          c.openTime + minuteMs ≤ lo ∨ c.openTime % minuteMs = 0 := by
        by_cases hv : c.valid?.isSome
        · exact .inr (.inr (grid_of_valid? hv))
        · exact .inl (covers_passRow_self hv)
      exact (ih hsp hself hgt hG).imp_left fun hx =>
        examined_subset (List.subset_cons_self c rows) hx

end range

/-! ## All ranges of a call -/

/-- In a walked range, rows next to each other are spaced; the edges of the range count as rows one
minute outside of it. -/
def CandleTable.SpacedIn (table : CandleTable) (range : Int × Int) : Prop :=
  ((range.1 - minuteMs) :: ((table.between range.1 range.2).map (·.openTime) ++
    [range.2 + minuteMs])).IsChain Spaced

instance (table : CandleTable) (range : Int × Int) : Decidable (table.SpacedIn range) :=
  inferInstanceAs (Decidable (List.IsChain ..))

section ranges

variable {table : CandleTable} {ranges : List (Int × Int)} {gaps G : List (Int × Int)} {m : Int}

theorem subset_foldl_passRange (ranges : List (Int × Int)) (gaps : List (Int × Int)) :
    gaps ⊆ ranges.foldl (passRange table) gaps := by
  induction ranges generalizing gaps with
  | nil => exact List.Subset.refl _
  | cons r ranges ih => exact List.Subset.trans (subset_passEnd _ (r.1, gaps)) (ih _)

/-- Every whole minute of the ranges is examined or, after merging, in a gap. -/
theorem accounted_passRanges (hsp : ∀ r ∈ ranges, table.SpacedIn r) (hm : m % minuteMs = 0)
    (hc : Intervals.Covers ranges m) (hG : ranges.foldl (passRange table) gaps ⊆ G) :
    Accounted (examined (table.inRanges ranges)) (mergeRanges G) m := by
  obtain ⟨r, hr, h1, h2⟩ := hc
  obtain ⟨before, after, rfl⟩ := List.append_of_mem hr
  rw [List.foldl_append, List.foldl_cons] at hG
  have hend : passEnd r.2 ((table.between r.1 r.2).foldl passRow
      (r.1 - minuteMs + minuteMs, before.foldl (passRange table) gaps)) ⊆ G := by
    rw [sub_add_cancel]
    exact List.Subset.trans (subset_foldl_passRange after _) hG
  have hstart : r.1 - minuteMs < m := (sub_lt_self r.1 (by decide)).trans_le h1
  have hrange : Accounted (examined (table.between r.1 r.2)) (mergeRanges G) m :=
    accounted_passRows (hsp r hr) (.inr (.inl (sub_add_cancel r.1 minuteMs).le)) hm h1
      hstart h2 hend
  exact hrange.imp_left fun hx => examined_subset (fun c hc => List.mem_flatMap.mpr ⟨r, hr, hc⟩) hx

end ranges

namespace Plan

/-- What the walk of a call needs to lose no minute: no whole minute lies between the mark and the
stretch after it, none lies between the upper bound and the part of a gap after it, and the rows are
spaced. -/
structure Regular (p : Plan) (trade : StopTrade) (table : CandleTable) : Prop where
  mark : p.through % minuteMs = 0 ∨ p.upper < (p.through / minuteMs + 1) * minuteMs
  bound : p.upper % minuteMs = 0 ∨ ∀ gap ∈ p.pending, gap.2 ≤ p.upper
  rows : ∀ r ∈ p.ranges trade, table.SpacedIn r

instance (p : Plan) (trade : StopTrade) (table : CandleTable) : Decidable (p.Regular trade table) :=
  decidable_of_iff ((p.through % minuteMs = 0 ∨ p.upper < (p.through / minuteMs + 1) * minuteMs) ∧
    (p.upper % minuteMs = 0 ∨ ∀ gap ∈ p.pending, gap.2 ≤ p.upper) ∧
    ∀ r ∈ p.ranges trade, table.SpacedIn r)
    ⟨fun h => ⟨h.1, h.2.1, h.2.2⟩, fun h => ⟨h.mark, h.bound, h.rows⟩⟩

variable {trade : StopTrade} {t : Tick} {table : CandleTable} {state : Option Checkpoint} {m : Int}
  {ex : List Int}

theorem covers_of_pending {p : Plan} (h : Intervals.Covers p.pending m) (hle : m ≤ p.upper) :
    Intervals.Covers (p.ranges trade) m := by
  obtain ⟨gap, hgap, h1, h2⟩ := h
  exact Intervals.covers_merge
    ⟨_, List.mem_append_left _ (List.mem_map_of_mem hgap), h1, le_min h2 hle⟩

/-- The walk starts over, or from a checkpoint all of whose gaps are pending. -/
theorem make_cases (trade : StopTrade) (t : Tick) (table : CandleTable)
    (state : Option Checkpoint) :
    (make trade t table state).through = trade.firstMs - minuteMs ∨
      ∃ ck ∈ state, (make trade t table state).through = ck.throughMs ∧
        ∀ m, trade.firstMs ≤ m → m ≤ ck.throughMs → Intervals.Covers ck.gaps m →
          Intervals.Covers (make trade t table state).pending m := by
  cases state with
  | none => exact .inl (ite_self _)
  | some ck =>
    by_cases hpast : ck.throughMs > t.clockUpper
    · exact .inl (if_pos hpast)
    · refine .inr ⟨ck, rfl, if_neg hpast, fun m h1 h2 hc => ?_⟩
      obtain ⟨gap, hgap, hg1, hg2⟩ := hc
      refine ⟨_, List.mem_map_of_mem ?_, max_le h1 hg1, le_min (h2.trans (not_lt.mp hpast)) hg2⟩
      exact (if_neg hpast).symm ▸ hgap

/-- A minute that is in a saved gap, or that comes a minute after the mark, is walked. -/
theorem covers_ranges (hfirst : trade.firstMs ≤ m) (hle : m ≤ (make trade t table state).upper)
    (h : ∀ ck ∈ state, (make trade t table state).through = ck.throughMs →
      m ≤ ck.throughMs ∧ Intervals.Covers ck.gaps m ∨ ck.throughMs + minuteMs ≤ m) :
    Intervals.Covers ((make trade t table state).ranges trade) m := by
  rcases make_cases trade t table state with hnew | ⟨ck, hck, heq, hpend⟩
  · refine covers_stretch _ hfirst ?_ hle
    rw [hnew, sub_add_cancel]
    exact hfirst
  · rcases h ck hck heq with ⟨hthrough, hgap⟩ | hnext
    · exact covers_of_pending (hpend m hfirst hthrough hgap) hle
    · exact covers_stretch _ hfirst (heq ▸ hnext) hle

theorem gaps_save (p : Plan) (gaps : List (Int × Int)) :
    (p.save gaps).gaps = mergeRanges (gaps ++ p.preserved) := rfl

theorem covers_mergeRanges {ranges : List (Int × Int)} (h : Intervals.Covers ranges m) :
    Intervals.Covers (mergeRanges ranges) m := Intervals.covers_merge h

/-- Whole minutes are a minute apart. -/
theorem add_minute_le {a : Int} (ha : a % minuteMs = 0) (hm : m % minuteMs = 0) (hlt : a < m) :
    a + minuteMs ≤ m := by
  rw [minuteMs] at ha hm ⊢
  omega

/-- No whole minute comes after the mark and before the minute after it, up to the bound. -/
theorem Regular.add_minute_le {p : Plan} (h : p.Regular trade table) (hm : m % minuteMs = 0)
    (hlt : p.through < m) (hle : m ≤ p.upper) : p.through + minuteMs ≤ m := by
  rcases h.mark with hgrid | hshort
  · exact Plan.add_minute_le hgrid hm hlt
  · have hm' := hle.trans_lt hshort
    generalize p.through = through at hlt hm' ⊢
    rw [minuteMs] at hm hm' ⊢
    omega

/-- After a regular call, every whole minute up to the new mark is accounted for. -/
theorem Regular.accounted (h : (make trade t table state).Regular trade table)
    (hm : m % minuteMs = 0) (hfirst : trade.firstMs ≤ m)
    (hle : m ≤ max (make trade t table state).through (make trade t table state).upper)
    (hold : ∀ ck ∈ state, m ≤ ck.throughMs → Accounted ex ck.gaps m) :
    Accounted (ex ++ examined (table.inRanges ((make trade t table state).ranges trade)))
      ((make trade t table state).save
        (((make trade t table state).ranges trade).foldl (passRange table) [])).gaps m := by
  rw [gaps_save]
  by_cases hwalked : Intervals.Covers ((make trade t table state).ranges trade) m
  · exact (accounted_passRanges h.rows hm hwalked (List.subset_append_left ..)).imp_left
      (List.mem_append_right _)
  · by_cases hex : m ∈ ex
    · exact .inl (List.mem_append_left _ hex)
    · have hsaved : ∀ ck ∈ state, m ≤ ck.throughMs → Intervals.Covers ck.gaps m :=
        fun ck hck hthrough => (hold ck hck hthrough).resolve_left hex
      have hgt : (make trade t table state).upper < m := by
        refine not_le.mp fun hup => hwalked (covers_ranges hfirst hup fun ck hck heq => ?_)
        by_cases hthrough : m ≤ ck.throughMs
        · exact .inl ⟨hthrough, hsaved ck hck hthrough⟩
        · exact .inr (heq ▸ h.add_minute_le hm (heq ▸ not_le.mp hthrough) hup)
      have hthrough := (le_max_iff.mp hle).resolve_right hgt.not_ge
      -- beyond the upper bound but not beyond the mark: in the part of a gap that is kept
      rcases make_cases trade t table state with hnew | ⟨ck, hck, heq, hpend⟩
      · rw [hnew] at hthrough
        simp only [minuteMs] at hthrough
        omega
      · rw [heq] at hthrough
        obtain ⟨gap, hgap, h1, h2⟩ := hpend m hfirst hthrough (hsaved ck hck hthrough)
        have hpast : gap.2 > (make trade t table state).upper := hgt.trans_le h2
        have hnext : (make trade t table state).upper + minuteMs ≤ m := by
          rcases h.bound with hgrid | hnone
          · exact Plan.add_minute_le hgrid hm hgt
          · exact absurd (hnone gap hgap) hpast.not_ge
        refine .inr (covers_mergeRanges ⟨_, List.mem_append_right _ (List.mem_map_of_mem
          (List.mem_filter.mpr ⟨hgap, decide_eq_true hpast⟩)), max_le h1 hnext, h2⟩)

end Plan

/-! ## Ticks over a changing table -/

/-- The checkpoint in the trade's notes, and the minutes that were examined with a valid row in some
tick so far. -/
structure ScanState where
  checkpoint : Option Checkpoint := none
  examined : List Int := []
  deriving DecidableEq

section scan

variable (trade : StopTrade) (levelsAt : Time → Levels)

/-- The minutes that a tick without an exit examines with a valid row. -/
def examinedAt (state : Option Checkpoint) (t : Tick) : List Int :=
  if trade.actualEntryTime > t.now then []
  else (t.table? trade.asset).elim [] fun table =>
    examined (table.inRanges ((Plan.make trade t table state).ranges trade))

namespace ScanState

/-- One tick that returns no exit. A call that raises leaves the state as it is. -/
def step (s : ScanState) (t : Tick) : Option ScanState :=
  match checkStopPath trade levelsAt t s.checkpoint with
  | .error _ => some s
  | .ok (some _, _) => none
  | .ok (none, ck) => some ⟨ck, s.examined ++ examinedAt trade s.checkpoint t⟩

/-- The walk of a tick that saves its progress is regular. -/
def RegularTick (s : ScanState) (t : Tick) : Prop :=
  trade.actualEntryTime ≤ t.now → t.saveProgress = true → ∀ table ∈ t.table? trade.asset,
    (Plan.make trade t table s.checkpoint).Regular trade table

instance (s : ScanState) (t : Tick) : Decidable (s.RegularTick trade t) :=
  inferInstanceAs (Decidable (_ → _ → ∀ table ∈ t.table? trade.asset, _))

/-- All ticks of a run are regular. -/
def RegularRun : ScanState → List Tick → Prop
  | _, [] => True
  | s, t :: ts => s.RegularTick trade t ∧ ∀ s' ∈ s.step trade levelsAt t, RegularRun s' ts

/-- Each whole minute from the first full minute after the entry through the mark was examined or
lies in a saved gap. -/
def NothingForgotten (s : ScanState) : Prop :=
  ∀ ck ∈ s.checkpoint, ∀ m, m % minuteMs = 0 → trade.firstMs ≤ m → m ≤ ck.throughMs →
    Accounted s.examined ck.gaps m

/-- A row of a minute up to the mark that was not examined, supplied by the time of a later tick, is
walked by it. -/
def Retries (s : ScanState) : Prop :=
  ∀ ck ∈ s.checkpoint, ∀ t table, ∀ c ∈ table.rows, c.openTime % minuteMs = 0 →
    trade.firstMs ≤ c.openTime → c.openTime ≤ ck.throughMs →
      c.openTime ≤ (Plan.make trade t table s.checkpoint).upper → c.openTime ∈ s.examined ∨
        c ∈ table.inRanges ((Plan.make trade t table s.checkpoint).ranges trade)

variable {trade levelsAt}

theorem NothingForgotten.retries {s : ScanState} (h : s.NothingForgotten trade) :
    s.Retries trade := by
  intro ck hck t table c hc hm hfirst hthrough hup
  refine (h ck hck _ hm hfirst hthrough).imp_right fun hgap => ?_
  refine CandleTable.mem_inRanges.mpr ⟨hc, Plan.covers_ranges hfirst hup fun ck' hck' _ => .inl ?_⟩
  cases Option.some.inj (hck.symm.trans hck')
  exact ⟨hthrough, hgap⟩

/-- What a tick without an exit leaves of the checkpoint. -/
theorem checkCandles_cases {t : Tick} {table : CandleTable} {state ck : Option Checkpoint}
    (h : checkCandles trade levelsAt t table state = (none, ck)) :
    ck = state ∨ t.saveProgress = true ∧ ck = some ((Plan.make trade t table state).save
      (((Plan.make trade t table state).ranges trade).foldl (passRange table) [])) := by
  simp only [checkCandles, walk_eq] at h
  cases hfind : (table.inRanges ((Plan.make trade t table state).ranges trade)).findSome?
      (Candle.exit? trade.direction levelsAt) with
  | some e =>
    rw [hfind] at h
    cases h
  | none =>
    rw [hfind] at h
    cases hq : quoteHit trade levelsAt t with
    | some e =>
      rw [hq] at h
      cases h
    | none =>
      rw [hq] at h
      simp only [Option.elim_none] at h
      split at h
      · next hsave => exact .inr ⟨hsave.2, (Prod.mk.inj h).2.symm⟩
      · exact .inl (Prod.mk.inj h).2.symm

theorem NothingForgotten.mono {s : ScanState} (h : s.NothingForgotten trade) (ex : List Int) :
    NothingForgotten trade ⟨s.checkpoint, s.examined ++ ex⟩ :=
  fun ck hck m hm h1 h2 => (h ck hck m hm h1 h2).imp_left (List.mem_append_left _)

theorem NothingForgotten.step {s s' : ScanState} {t : Tick} (h : s.NothingForgotten trade)
    (hr : s.RegularTick trade t) (hs : s.step trade levelsAt t = some s') :
    s'.NothingForgotten trade := by
  unfold ScanState.step at hs
  rcases checkStopPath_cases trade levelsAt t with ⟨e, he⟩ | hbefore | ⟨-, hnow, table, ht, heq⟩
  · rw [he] at hs
    exact Option.some.inj hs ▸ h
  · rw [hbefore] at hs
    exact Option.some.inj hs ▸ h.mono _
  · rw [heq] at hs
    rcases hcheck : checkCandles trade levelsAt t table s.checkpoint with ⟨exit, ck⟩
    rw [hcheck] at hs
    cases exit with
    | some e => cases hs
    | none =>
      rw [← Option.some.inj hs]
      rcases checkCandles_cases hcheck with rfl | ⟨hsave, rfl⟩
      · exact h.mono _
      · rintro _ ⟨⟩ m hm h1 h2
        rw [examinedAt, if_neg hnow.not_gt, ht]
        exact (hr hnow hsave table ht).accounted hm h1 h2 fun ck hck => h ck hck m hm h1

end ScanState

end scan

section run

variable {trade : StopTrade} {levelsAt : Time → Levels}

theorem ScanState.NothingForgotten.run {s s' : ScanState} {ts : List Tick}
    (h : s.NothingForgotten trade) (hr : s.RegularRun trade levelsAt ts)
    (hs : ts.foldlM (ScanState.step trade levelsAt) s = some s') :
    s'.NothingForgotten trade := by
  induction ts generalizing s with
  | nil => exact Option.some.inj hs ▸ h
  | cons t ts ih =>
    obtain ⟨s₁, hs₁, hs⟩ := Option.bind_eq_some_iff.mp hs
    exact ih (h.step hr.1 hs₁) (hr.2 s₁ hs₁) hs

/-- In every run of ticks without an exit, over tables in which anything may have changed in
between, if each tick that saves its progress is regular then after each tick every whole minute up
to the mark was examined or is in a gap, and a row that is supplied later is walked. -/
theorem nothing_forgotten (trade : StopTrade) (levelsAt : Time → Levels) {ts : List Tick}
    {s : ScanState} (hr : ScanState.RegularRun trade levelsAt {} ts)
    (hs : ts.foldlM (ScanState.step trade levelsAt) {} = some s) :
    s.NothingForgotten trade ∧ s.Retries trade := by
  have hnew : ScanState.NothingForgotten trade {} := fun _ hck => nomatch hck
  have h := hnew.run hr hs
  exact ⟨h, h.retries⟩

/-- Simulated ticks on a table of BTC candles. -/
def btcTick (now : Time) (rows : List Candle)
    (sorted : rows.Pairwise fun c c' => c.openTime < c'.openTime) : Tick where
  now := now
  simulated := true
  btc1m := ⟨rows, sorted⟩
  eth1m := .empty

/-- The row at 00:02:30 is not at a whole minute, but its neighbours are stored. The row of 00:04 is
missing at first, and is there at the second tick. -/
def spacedTicks : List Tick :=
  [btcTick 400_000_000
    [⟨60_000, some 100, some 101, some 99, some 100⟩,
      ⟨120_000, some 100, some 101, some 99, some 100⟩,
      ⟨150_000, some 100, some 101, some 99, some 100⟩,
      ⟨180_000, some 100, some 101, some 99, some 100⟩,
      ⟨300_000, some 100, some 101, some 99, some 100⟩] (by decide),
    btcTick 460_000_000
    [⟨60_000, some 100, some 101, some 99, some 100⟩,
      ⟨120_000, some 100, some 101, some 99, some 100⟩,
      ⟨150_000, some 100, some 101, some 99, some 100⟩,
      ⟨180_000, some 100, some 101, some 99, some 100⟩,
      ⟨240_000, some 100, some 101, some 99, some 100⟩,
      ⟨300_000, some 100, some 101, some 99, some 100⟩]
    (by decide)]

/-- After the second tick the gaps are the odd row and the minute that is still missing. -/
theorem nothing_forgotten_spaced :
    ∃ s, spacedTicks.foldlM (ScanState.step longAt30s stopAt95) {} = some s ∧
      s.checkpoint = some ⟨360_000, [(150_000, 150_000), (360_000, 360_000)]⟩ ∧
      s.NothingForgotten longAt30s ∧ s.Retries longAt30s := by
  have hr : ScanState.RegularRun longAt30s stopAt95 {} spacedTicks :=
    ⟨by decide +kernel, fun s₁ hs₁ => ⟨by cases hs₁; decide +kernel, fun _ _ => trivial⟩⟩
  have hs : spacedTicks.foldlM (ScanState.step longAt30s stopAt95) {} =
      some ⟨some ⟨360_000, [(150_000, 150_000), (360_000, 360_000)]⟩,
        [60_000, 120_000, 180_000, 300_000, 240_000]⟩ := by decide +kernel
  exact ⟨_, hs, rfl, nothing_forgotten longAt30s stopAt95 hr hs⟩

/-- The row at 00:02:30 comes one and a half minutes after the one at 00:01, and the row of 00:02 is
supplied before the second tick. -/
def oddRowTicks : List Tick :=
  [btcTick 250_000_000
    [⟨60_000, some 100, some 101, some 99, some 100⟩,
      ⟨150_000, some 100, some 101, some 99, some 100⟩,
      ⟨180_000, some 100, some 101, some 99, some 100⟩] (by decide),
    btcTick 310_000_000
    [⟨60_000, some 100, some 101, some 99, some 100⟩,
      ⟨120_000, some 100, some 101, some 90, some 100⟩,
      ⟨150_000, some 100, some 101, some 99, some 100⟩,
      ⟨180_000, some 100, some 101, some 99, some 100⟩]
    (by decide)]

/-- The minute 00:02 is up to the mark, but it was never examined and is in no gap. Its row falls
through the stop, and only a walk without the checkpoint finds it. -/
theorem oddRow_forgets_minute :
    oddRowTicks.Pairwise (fun t t' => ∀ c ∈ t.btc1m.rows, c ∈ t'.btc1m.rows) ∧
    ∃ s ck, oddRowTicks.foldlM (ScanState.step longAt30s stopAt95) {} = some s ∧
      s.checkpoint = some ck ∧ 120_000 % minuteMs = 0 ∧ longAt30s.firstMs ≤ 120_000 ∧
      120_000 ≤ ck.throughMs ∧ ¬ Accounted s.examined ck.gaps 120_000 ∧
      oddRowTicks.map (fun t => checkStopPath longAt30s stopAt95 t none) =
        [.ok (none, some ⟨180_000, [(150_000, 150_000)]⟩),
          .ok (some ⟨95, 180_000_000, "stop_loss"⟩, none)] := by
  refine ⟨by decide +kernel, ⟨some ⟨240_000, [(150_000, 150_000), (240_000, 240_000)]⟩,
    [60_000, 180_000]⟩, ⟨240_000, [(150_000, 150_000), (240_000, 240_000)]⟩, ?_⟩
  decide +kernel

end run

end P300
