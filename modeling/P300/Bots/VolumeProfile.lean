import Mathlib.Data.List.GetD
import Mathlib.Data.List.MinMax
import P300.Dashboard.Profile
import P300.Lib.Blocks
import P300.Lib.Tally

/-!
# The volume profile

`compute_volume_profile_for_ts` of `bots/chento_v3/strategy/math.py`: the volume of the bars in bins
of their typical price, and the value area, a block of bins around the one with the most volume.
Arithmetic is exact, and a price that is not a number is `none`.
-/

namespace P300

/-- A row of `df_recent`. -/
structure ProfileBar where
  high : Option ℚ
  low : Option ℚ
  volume : ℚ

/-- `typ` -/
def ProfileBar.typ (b : ProfileBar) : Option ℚ := do
  let high ← b.high
  let low ← b.low
  return (high + low) / 2

structure VolumeProfile where
  poc : ℚ
  vah : ℚ
  val : ℚ
  deriving DecidableEq

/-- `bin_edges[k]` -/
def binEdge (lo hi : ℚ) (nBins k : ℕ) : ℚ := lo + k * ((hi - lo) / nBins)

/-- `idx` of a price -/
def binIdx (lo hi : ℚ) (nBins : ℕ) (p : ℚ) : ℕ :=
  (min (max (truncate ((p - lo) / (hi - lo) * nBins)) 0) (nBins - 1)).toNat

/-- `bin_vol` -/
def binVolumes (bars : List ProfileBar) (lo hi : ℚ) (nBins : ℕ) : List ℚ :=
  Tally.tally nBins (fun b => b.typ.map (binIdx lo hi nBins)) (·.volume) bars

/-- `np.argmax` -/
def argmax (binVol : List ℚ) : ℕ :=
  ((List.range binVol.length).argmax fun k => binVol.getD k 0).getD 0

/-- The variables of the loop. -/
structure Expansion where
  loBin : ℕ
  hiBin : ℕ
  accumulated : ℚ

/-- `below` -/
def Expansion.below (binVol : List ℚ) (s : Expansion) : ℚ :=
  if s.loBin > 0 then binVol.getD (s.loBin - 1) 0 else -1

/-- `above` -/
def Expansion.above (binVol : List ℚ) (s : Expansion) : ℚ :=
  if s.hiBin < binVol.length - 1 then binVol.getD (s.hiBin + 1) 0 else -1

/-- The condition and the body of the loop; `none` when it ends. -/
def expandStep (binVol : List ℚ) (target : ℚ) (s : Expansion) : Option Expansion :=
  if s.accumulated < target ∧ (s.loBin > 0 ∨ s.hiBin < binVol.length - 1) then
    if s.below binVol ≥ s.above binVol ∧ s.loBin > 0 then
      some ⟨s.loBin - 1, s.hiBin, s.accumulated + binVol.getD (s.loBin - 1) 0⟩
    else if s.hiBin < binVol.length - 1 then
      some ⟨s.loBin, s.hiBin + 1, s.accumulated + binVol.getD (s.hiBin + 1) 0⟩
    else none
  else none

/-- The loop, with fuel. -/
def expand (binVol : List ℚ) (target : ℚ) : ℕ → Expansion → Option Expansion
  | 0, _ => none
  | fuel + 1, s =>
    match expandStep binVol target s with
    | none => some s
    | some s' => expand binVol target fuel s'

/-- The variables before the loop. -/
def Expansion.start (binVol : List ℚ) (pocBin : ℕ) : Expansion :=
  ⟨pocBin, pocBin, binVol.getD pocBin 0⟩

/-- `poc_price`, `vah_price` and `val_price` -/
def Expansion.prices (lo hi : ℚ) (nBins pocBin : ℕ) (s : Expansion) : VolumeProfile where
  poc := 1 / 2 * (binEdge lo hi nBins pocBin + binEdge lo hi nBins (pocBin + 1))
  vah := binEdge lo hi nBins (s.hiBin + 1)
  val := binEdge lo hi nBins s.loBin

/-- `compute_volume_profile_for_ts`, with fuel for its loop; three `nan` are `none`. -/
def computeVolumeProfileForTs (bars : List ProfileBar) (nBins : ℕ) (valueAreaPct : ℚ)
    (fuel : ℕ) : Option (Except String (Option VolumeProfile)) :=
  if bars.isEmpty then some (.ok none)
  else if (bars.map (·.volume)).sum ≤ 0 ∨ ∃ b ∈ bars, b.typ = none then some (.ok none)
  else
    match (bars.filterMap ProfileBar.typ).min?, (bars.filterMap ProfileBar.typ).max? with
    | some lo, some hi =>
      if hi ≤ lo then some (.ok none)
      else if nBins = 0 then some (.error "IndexError")
      else do
        let binVol := binVolumes bars lo hi nBins
        let pocBin := argmax binVol
        let target := valueAreaPct * binVol.sum
        let s ← expand binVol target fuel (.start binVol pocBin)
        return .ok (some (s.prices lo hi nBins pocBin))
    | _, _ => some (.ok none)

/-! ## The bins -/

section bins

variable {bars : List ProfileBar} {lo hi p : ℚ} {nBins : ℕ}

theorem binIdx_eq_kidx (hlt : lo < hi) (hn : 0 < nBins) :
    binIdx lo hi nBins p = kidx nBins lo ((hi - lo) / nBins) p := by
  have hwidth : 0 < (hi - lo) / nBins := div_pos (sub_pos.mpr hlt) (Nat.cast_pos.mpr hn)
  have hquot : (p - lo) / (hi - lo) * nBins = (p - lo) / ((hi - lo) / nBins) := by
    rw [div_div_eq_mul_div, div_mul_eq_mul_div]
  rw [binIdx, kidx, if_neg hwidth.not_ge, hquot]
  omega

/-- A price lies between the edges of its bin. -/
theorem binIdx_spec (hlt : lo < hi) (hn : 0 < nBins) (hlo : lo ≤ p) (hhi : p ≤ hi) :
    binIdx lo hi nBins p < nBins ∧ binEdge lo hi nBins (binIdx lo hi nBins p) ≤ p ∧
      p ≤ binEdge lo hi nBins (binIdx lo hi nBins p + 1) := by
  have hwidth : 0 < (hi - lo) / nBins := div_pos (sub_pos.mpr hlt) (Nat.cast_pos.mpr hn)
  have htop : p ≤ lo + nBins * ((hi - lo) / nBins) := by
    rw [mul_div_cancel₀ _ (Nat.cast_ne_zero.mpr hn.ne')]
    linarith
  rw [binIdx_eq_kidx hlt hn, binEdge, binEdge, Nat.cast_succ]
  exact kidx_spec hn hwidth hlo htop

/-- The bin of a bar. -/
def ProfileBar.InBin (lo hi : ℚ) (nBins : ℕ) (b : ProfileBar) (k : ℕ) : Prop :=
  b.typ.map (binIdx lo hi nBins) = some k

instance (b : ProfileBar) (k : ℕ) : Decidable (b.InBin lo hi nBins k) :=
  inferInstanceAs (Decidable (_ = _))

/-- Each bar is in one bin, which holds its price, and each bin has the volume of its bars. -/
structure Binned (bars : List ProfileBar) (lo hi : ℚ) (nBins : ℕ) (binVol : List ℚ) : Prop where
  length : binVol.length = nBins
  one : ∀ b ∈ bars, ∃! k, k < nBins ∧ b.InBin lo hi nBins k
  edges : ∀ b ∈ bars, ∀ k, b.InBin lo hi nBins k → ∃ p, b.typ = some p ∧
    binEdge lo hi nBins k ≤ p ∧ p ≤ binEdge lo hi nBins (k + 1)
  volume : ∀ k < nBins, binVol.getD k 0 =
    ((bars.filter fun b => b.InBin lo hi nBins k).map (·.volume)).sum
  total : binVol.sum = (bars.map (·.volume)).sum

theorem binVolumes_binned (hlt : lo < hi) (hn : 0 < nBins)
    (hprices : ∀ b ∈ bars, ∃ p, b.typ = some p ∧ lo ≤ p ∧ p ≤ hi) :
    Binned bars lo hi nBins (binVolumes bars lo hi nBins) := by
  have hbin : ∀ b ∈ bars, ∃ k < nBins, b.InBin lo hi nBins k := by
    intro b hb
    obtain ⟨p, hp, hlo, hhi⟩ := hprices b hb
    exact ⟨_, (binIdx_spec hlt hn hlo hhi).1, by rw [ProfileBar.InBin, hp, Option.map_some]⟩
  refine ⟨Tally.length_tally bars, fun b hb => ?_, fun b hb k hk => ?_, fun k hk => ?_,
    Tally.sum_tally hbin⟩
  · obtain ⟨k, hk⟩ := hbin b hb
    exact ⟨k, hk, fun j hj => Option.some.inj (hj.2.symm.trans hk.2)⟩
  · obtain ⟨p, hp, hlo, hhi⟩ := hprices b hb
    rw [ProfileBar.InBin, hp, Option.map_some] at hk
    obtain rfl := Option.some.inj hk
    exact ⟨p, hp, (binIdx_spec hlt hn hlo hhi).2⟩
  · rw [binVolumes, List.getD_eq_getElem?_getD, Tally.getElem?_tally hk, Option.getD_some]
    rfl

theorem argmax_spec {binVol : List ℚ} (hpos : 0 < binVol.length) :
    argmax binVol < binVol.length ∧
      ∀ k < binVol.length, binVol.getD k 0 ≤ binVol.getD (argmax binVol) 0 := by
  unfold argmax
  cases hmax : (List.range binVol.length).argmax fun k => binVol.getD k 0 with
  | none =>
    rw [List.argmax_eq_none, List.range_eq_nil] at hmax
    omega
  | some poc =>
    refine ⟨List.mem_range.mp (List.argmax_mem hmax), fun k hk => ?_⟩
    exact List.le_of_mem_argmax (List.mem_range.mpr hk) hmax

end bins

/-! ## The loop -/

section loop

variable {binVol : List ℚ} {target : ℚ} {pocBin : ℕ} {s s' : Expansion} {last : ℕ}

/-- The states that the loop comes to, with the bin that was added last. -/
inductive Expanded (binVol : List ℚ) (target : ℚ) (pocBin : ℕ) : Expansion → ℕ → Prop
  | start : Expanded binVol target pocBin (.start binVol pocBin) pocBin
  | down {s s' : Expansion} {last : ℕ} : Expanded binVol target pocBin s last →
      expandStep binVol target s = some s' → s'.loBin < s.loBin →
      Expanded binVol target pocBin s' s'.loBin
  | up {s s' : Expansion} {last : ℕ} : Expanded binVol target pocBin s last →
      expandStep binVol target s = some s' → s.hiBin < s'.hiBin →
      Expanded binVol target pocBin s' s'.hiBin

/-- What a state of the loop must be when it ends. -/
structure ValueArea (binVol : List ℚ) (pocBin : ℕ) (target : ℚ) (s : Expansion) (last : ℕ) :
    Prop where
  expanded : Expanded binVol target pocBin s last
  contains : s.loBin ≤ pocBin ∧ pocBin ≤ s.hiBin
  inside : s.hiBin < binVol.length
  holds : target ≤ ∑ k ∈ Finset.Icc s.loBin s.hiBin, binVol.getD k 0
  last_mem : last ∈ Finset.Icc s.loBin s.hiBin
  without_last : ∑ k ∈ (Finset.Icc s.loBin s.hiBin).erase last, binVol.getD k 0 < target

theorem expandStep_cases (h : expandStep binVol target s = some s') : s.accumulated < target ∧
    (0 < s.loBin ∧
        s' = ⟨s.loBin - 1, s.hiBin, s.accumulated + binVol.getD (s.loBin - 1) 0⟩ ∨
      s.hiBin + 1 < binVol.length ∧
        s' = ⟨s.loBin, s.hiBin + 1, s.accumulated + binVol.getD (s.hiBin + 1) 0⟩) := by
  unfold expandStep at h
  split at h
  · next hcond =>
    refine ⟨hcond.1, ?_⟩
    split at h
    · next hbelow => exact .inl ⟨hbelow.2, (Option.some.inj h).symm⟩
    · split at h
      · next habove => exact .inr ⟨by omega, (Option.some.inj h).symm⟩
      · cases h
  · cases h

/-- With volumes that are not negative no neighbour loses against an edge of the bins. -/
theorem expandStep_none (hnonneg : ∀ k, 0 ≤ binVol.getD k 0)
    (h : expandStep binVol target s = none) :
    target ≤ s.accumulated ∨ s.loBin = 0 ∧ binVol.length ≤ s.hiBin + 1 := by
  refine or_iff_not_imp_left.mpr fun hlt => ?_
  rw [not_le] at hlt
  unfold expandStep at h
  by_cases hhi : s.hiBin < binVol.length - 1
  · rw [if_pos ⟨hlt, .inr hhi⟩] at h
    split at h <;> cases h
  · refine ⟨?_, by omega⟩
    by_contra hlo
    have hlo : s.loBin > 0 := Nat.pos_of_ne_zero hlo
    -- only the bin below is left
    have hbelow : s.below binVol ≥ s.above binVol := by
      rw [Expansion.below, if_pos hlo, Expansion.above, if_neg hhi]
      linarith [hnonneg (s.loBin - 1)]
    rw [if_pos ⟨hlt, .inl hlo⟩, if_pos ⟨hbelow, hlo⟩] at h
    cases h

open Blocks

/-- The state stands for a block of bins. -/
structure Expansion.Tracks (binVol : List ℚ) (s : Expansion) (b : Block binVol.length) : Prop where
  lo : s.loBin = b.lo
  hi : s.hiBin = b.hi
  accumulated : s.accumulated = b.weight fun k => binVol.getD k 0

/-- What the loop keeps: it has grown the block of its bins from the POC bin. -/
structure Expansion.Grown (binVol : List ℚ) (target : ℚ) (hpoc : pocBin < binVol.length)
    (s : Expansion) (last : ℕ) (b : Block binVol.length) : Prop where
  expanded : Expanded binVol target pocBin s last
  tracks : s.Tracks binVol b
  filled : Filled (fun k => binVol.getD k 0) target hpoc b last

variable {hpoc : pocBin < binVol.length} {b : Block binVol.length}

theorem Expansion.Grown.start (target : ℚ) (hpoc : pocBin < binVol.length) :
    (Expansion.start binVol pocBin).Grown binVol target hpoc pocBin (.single pocBin hpoc) where
  expanded := .start
  tracks := ⟨rfl, rfl, (weight_single (fun k => binVol.getD k 0) hpoc).symm⟩
  filled := .single

theorem Expansion.Grown.step (H : s.Grown binVol target hpoc last b)
    (h : expandStep binVol target s = some s') :
    ∃ last' b', s'.Grown binVol target hpoc last' b' ∧ b'.room + 1 = b.room := by
  obtain ⟨hlo, hhi, hacc⟩ := H.tracks
  obtain ⟨hlt, ⟨hroom, rfl⟩ | ⟨hroom, rfl⟩⟩ := expandStep_cases h
  · have hroom' : 0 < b.lo := hlo ▸ hroom
    have hgrow : Grows b (s.loBin - 1) (b.down hroom') := by
      rw [hlo]
      exact .down b hroom'
    refine ⟨s.loBin - 1, b.down hroom', ⟨.down H.expanded h (Nat.sub_lt hroom one_pos),
      ⟨congrArg (· - 1) hlo, hhi, ?_⟩, .grow H.filled (hacc ▸ hlt) hgrow⟩, hgrow.room_eq⟩
    rw [hgrow.weight_eq, ← hacc]
  · have hroom' : b.hi + 1 < binVol.length := hhi ▸ hroom
    have hgrow : Grows b (s.hiBin + 1) (b.up hroom') := by
      rw [hhi]
      exact .up b hroom'
    refine ⟨s.hiBin + 1, b.up hroom', ⟨.up H.expanded h (Nat.lt_succ_self _),
      ⟨hlo, congrArg (· + 1) hhi, ?_⟩, .grow H.filled (hacc ▸ hlt) hgrow⟩, hgrow.room_eq⟩
    rw [hgrow.weight_eq, ← hacc]

/-- At the end the target is reached. -/
theorem Expansion.Grown.target_le (hnonneg : ∀ k, 0 ≤ binVol.getD k 0)
    (htotal : target ≤ binVol.sum) (H : s.Grown binVol target hpoc last b)
    (h : expandStep binVol target s = none) :
    target ≤ b.weight fun k => binVol.getD k 0 := by
  obtain ⟨hlo, hhi, hacc⟩ := H.tracks
  rcases expandStep_none hnonneg h with hle | ⟨hlow, hhigh⟩
  · exact hacc ▸ hle
  · rw [← Tally.sum_range_getD] at htotal
    refine htotal.trans (not_lt.mp fun hlt => ?_)
    have hroom := exists_room hlt
    omega

/-- The loop ends before its block runs out of room, and then the target is reached. -/
theorem Expansion.Grown.run (hnonneg : ∀ k, 0 ≤ binVol.getD k 0) (htotal : target ≤ binVol.sum)
    (H : s.Grown binVol target hpoc last b) :
    ∃ s' last' b', s'.Grown binVol target hpoc last' b' ∧
      target ≤ b'.weight (fun k => binVol.getD k 0) ∧
      ∀ fuel, b.room < fuel → expand binVol target fuel s = some s' := by
  induction hroom : b.room using Nat.strong_induction_on generalizing s last b with
  | _ room ih =>
    cases hstep : expandStep binVol target s with
    | none =>
      refine ⟨s, last, b, H, H.target_le hnonneg htotal hstep, fun fuel hfuel => ?_⟩
      cases fuel with
      | zero => omega
      | succ fuel => rw [expand, hstep]
    | some next =>
      obtain ⟨last', b', H', hnext⟩ := H.step hstep
      obtain ⟨s', last'', b'', H'', hle, hrun⟩ := ih b'.room (by omega) H' rfl
      refine ⟨s', last'', b'', H'', hle, fun fuel hfuel => ?_⟩
      cases fuel with
      | zero => omega
      | succ fuel =>
        rw [expand, hstep]
        exact hrun fuel (by omega)

/-- The loop on its own: from a bin of the table it comes to a value area. -/
theorem expand_valueArea (hnonneg : ∀ k, 0 ≤ binVol.getD k 0) (hpos : 0 < target)
    (htotal : target ≤ binVol.sum) (hpoc : pocBin < binVol.length) :
    ∃ s last, ValueArea binVol pocBin target s last ∧
      ∀ fuel, binVol.length ≤ fuel → expand binVol target fuel (.start binVol pocBin) = some s := by
  obtain ⟨s, last, b, ⟨hexpanded, ⟨hlo, hhi, -⟩, hfilled⟩, hle, hrun⟩ :=
    (Expansion.Grown.start target hpoc).run hnonneg htotal
  have hpositions : Finset.Icc s.loBin s.hiBin = b.positions := by
    rw [hlo, hhi]
    rfl
  have hpocMem := Block.mem_positions.mp hfilled.start_mem
  refine ⟨s, last, ⟨hexpanded, by rwa [hlo, hhi], hhi ▸ b.hi_lt, ?_, ?_, ?_⟩,
    fun fuel hfuel => hrun fuel ?_⟩
  · rw [hpositions]
    exact hle
  · rw [hpositions]
    exact hfilled.last_mem
  · rw [hpositions]
    exact hfilled.erase_lt hpos
  · change pocBin + (binVol.length - (pocBin + 1)) < fuel
    omega

end loop

/-! ## The profile -/

/-- What a profile of bars with prices from `lo` to `hi` stands for. -/
structure Profiled (bars : List ProfileBar) (nBins : ℕ) (valueAreaPct lo hi : ℚ) (s : Expansion)
    (last : ℕ) : Prop where
  least : (bars.filterMap ProfileBar.typ).min? = some lo
  greatest : (bars.filterMap ProfileBar.typ).max? = some hi
  binned : Binned bars lo hi nBins (binVolumes bars lo hi nBins)
  poc : ∀ k < nBins, (binVolumes bars lo hi nBins).getD k 0 ≤
    (binVolumes bars lo hi nBins).getD (argmax (binVolumes bars lo hi nBins)) 0
  area : ValueArea (binVolumes bars lo hi nBins) (argmax (binVolumes bars lo hi nBins))
    (valueAreaPct * (bars.map (·.volume)).sum) s last

section profile

variable {bars : List ProfileBar} {nBins : ℕ} {valueAreaPct lo hi : ℚ}

/-- The least and the greatest price, if all prices are numbers and two of them differ. -/
theorem exists_range (hprices : ∀ b ∈ bars, b.typ ≠ none)
    (hdiffer : ∃ b ∈ bars, ∃ b' ∈ bars, b.typ ≠ b'.typ) :
    ∃ lo hi, (bars.filterMap ProfileBar.typ).min? = some lo ∧
      (bars.filterMap ProfileBar.typ).max? = some hi ∧ lo < hi ∧
      ∀ b ∈ bars, ∃ p, b.typ = some p ∧ lo ≤ p ∧ p ≤ hi := by
  have hprice : ∀ b ∈ bars, ∃ p, b.typ = some p ∧ p ∈ bars.filterMap ProfileBar.typ := by
    intro b hb
    obtain ⟨p, hp⟩ := Option.ne_none_iff_exists'.mp (hprices b hb)
    exact ⟨p, hp, List.mem_filterMap.mpr ⟨b, hb, hp⟩⟩
  obtain ⟨b, hb, b', hb', hne⟩ := hdiffer
  obtain ⟨p, hp, hmem⟩ := hprice b hb
  obtain ⟨p', hp', hmem'⟩ := hprice b' hb'
  cases hlo : (bars.filterMap ProfileBar.typ).min? with
  | none => exact absurd (List.min?_eq_none_iff.mp hlo) (List.ne_nil_of_mem hmem)
  | some lo =>
    cases hhi : (bars.filterMap ProfileBar.typ).max? with
    | none => exact absurd (List.max?_eq_none_iff.mp hhi) (List.ne_nil_of_mem hmem)
    | some hi =>
      have hle := (List.min?_eq_some_iff.mp hlo).2
      have hge := (List.max?_eq_some_iff.mp hhi).2
      refine ⟨lo, hi, rfl, rfl, not_le.mp fun heq => hne ?_, fun b hb => ?_⟩
      · have hpp : p = p' := by linarith [hle p hmem, hge p hmem, hle p' hmem', hge p' hmem']
        rw [hp, hp', hpp]
      · obtain ⟨p, hp, hmem⟩ := hprice b hb
        exact ⟨p, hp, hle p hmem, hge p hmem⟩

theorem binVolumes_nonneg (hnonneg : ∀ b ∈ bars, 0 ≤ b.volume)
    (H : Binned bars lo hi nBins (binVolumes bars lo hi nBins)) (k : ℕ) :
    0 ≤ (binVolumes bars lo hi nBins).getD k 0 := by
  rcases lt_or_ge k nBins with hk | hk
  · rw [H.volume k hk]
    refine List.sum_nonneg fun v hv => ?_
    obtain ⟨b, hb, rfl⟩ := List.mem_map.mp hv
    exact hnonneg b (List.mem_of_mem_filter hb)
  · rw [List.getD_eq_default _ _ (H.length.trans_le hk)]

/-- The value area is a contiguous block of bins around the fullest one that reaches its target. -/
theorem volume_profile_value_area (hprices : ∀ b ∈ bars, b.typ ≠ none)
    (hnonneg : ∀ b ∈ bars, 0 ≤ b.volume) (htotal : 0 < (bars.map (·.volume)).sum)
    (hdiffer : ∃ b ∈ bars, ∃ b' ∈ bars, b.typ ≠ b'.typ) (hn : 1 ≤ nBins)
    (hpct : 0 < valueAreaPct) (hpct' : valueAreaPct ≤ 1) :
    ∃ lo hi s last, Profiled bars nBins valueAreaPct lo hi s last ∧
      ∀ fuel, nBins ≤ fuel → computeVolumeProfileForTs bars nBins valueAreaPct fuel =
        some (.ok (some (s.prices lo hi nBins (argmax (binVolumes bars lo hi nBins))))) := by
  obtain ⟨lo, hi, hlo, hhi, hlt, hrange⟩ := exists_range hprices hdiffer
  have hbinned := binVolumes_binned hlt hn hrange
  have hlength := hbinned.length
  obtain ⟨hpoc, hmax⟩ := argmax_spec (hn.trans_eq hlength.symm)
  have htarget : valueAreaPct * (bars.map (·.volume)).sum ≤ (binVolumes bars lo hi nBins).sum := by
    rw [hbinned.total]
    exact mul_le_of_le_one_left htotal.le hpct'
  obtain ⟨s, last, harea, hrun⟩ := expand_valueArea (binVolumes_nonneg hnonneg hbinned)
    (mul_pos hpct htotal) htarget hpoc
  have hpocMax := fun k (hk : k < nBins) => hmax k (hk.trans_eq hlength.symm)
  refine ⟨lo, hi, s, last, ⟨hlo, hhi, hbinned, hpocMax, harea⟩, fun fuel hfuel => ?_⟩
  have hbars : bars.isEmpty = false := by
    obtain ⟨b, hb, -⟩ := hdiffer
    exact List.isEmpty_eq_false_iff.mpr (List.ne_nil_of_mem hb)
  have hgood : ¬ ((bars.map (·.volume)).sum ≤ 0 ∨ ∃ b ∈ bars, b.typ = none) :=
    not_or.mpr ⟨htotal.not_ge, fun ⟨b, hb, h⟩ => hprices b hb h⟩
  rw [computeVolumeProfileForTs, hbars, if_neg Bool.false_ne_true, if_neg hgood, hlo, hhi]
  dsimp only
  rw [if_neg hlt.not_ge, if_neg (by omega), hbinned.total, hrun fuel (hlength.trans_le hfuel)]
  rfl

/-- Three bars with two empty bins between them; the fullest bin is the last one. -/
def gapBars : List ProfileBar :=
  [⟨some 101, some 99, 2⟩, ⟨some 104, some 102, 6⟩, ⟨some 105, some 103, 1⟩]

theorem volume_profile_value_area_gap :
    computeVolumeProfileForTs gapBars 4 (9 / 10) 4 = some (.ok (some ⟨207 / 2, 104, 100⟩)) ∧
    ∃ lo hi s last, Profiled gapBars 4 (9 / 10) lo hi s last ∧
      ∀ fuel, 4 ≤ fuel → computeVolumeProfileForTs gapBars 4 (9 / 10) fuel =
        some (.ok (some (s.prices lo hi 4 (argmax (binVolumes gapBars lo hi 4))))) := by
  refine ⟨by decide +kernel, volume_profile_value_area ?_ ?_ ?_ ?_ (by decide) ?_ ?_⟩
  all_goals decide +kernel

end profile

end P300
