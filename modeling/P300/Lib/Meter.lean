import Mathlib.Algebra.BigOperators.Group.List.Basic
import Mathlib.Data.List.Chain

/-!
# Meters

A meter is read at a time; a reading may fail, and leaves a state for the next one. A meter resumes
if a reading does not change what later readings show. Then a series of readings at increasing times
shows what readings of the untouched meter would, so the values at the ends of adjacent windows
agree, and the differences over the windows add up.
-/

namespace Meter

/-! ## Lists of computations -/

section mapM

variable {ε α β : Type} {f : α → Except ε β} {l : List α} {bs : List β}

theorem mapM_cons_ok {a : α} : (a :: l).mapM f = .ok bs ↔
    ∃ b bs', f a = .ok b ∧ l.mapM f = .ok bs' ∧ bs = b :: bs' := by
  rw [List.mapM_cons]
  constructor
  · intro h
    cases ha : f a with
    | error e =>
      rw [ha] at h
      cases h
    | ok b =>
      rw [ha] at h
      cases hl : l.mapM f with
      | error e =>
        rw [hl] at h
        cases h
      | ok bs' =>
        rw [hl] at h
        exact ⟨b, bs', rfl, rfl, (Except.ok.inj h).symm⟩
  · rintro ⟨b, bs', ha, hl, rfl⟩
    rw [ha, hl]
    rfl

theorem mem_of_mapM (h : l.mapM f = .ok bs) {b : β} (hb : b ∈ bs) : ∃ a ∈ l, f a = .ok b := by
  induction l generalizing bs with
  | nil =>
    cases h
    cases hb
  | cons a l ih =>
    obtain ⟨b', bs', ha, hl, rfl⟩ := mapM_cons_ok.mp h
    rcases List.mem_cons.mp hb with rfl | hb
    · exact ⟨a, List.mem_cons_self, ha⟩
    · obtain ⟨a', ha', hfa⟩ := ih hl hb
      exact ⟨a', List.mem_cons_of_mem _ ha', hfa⟩

theorem exists_of_mapM (h : l.mapM f = .ok bs) {a : α} (ha : a ∈ l) : ∃ b ∈ bs, f a = .ok b := by
  induction l generalizing bs with
  | nil => cases ha
  | cons a' l ih =>
    obtain ⟨b', bs', ha', hl, rfl⟩ := mapM_cons_ok.mp h
    rcases List.mem_cons.mp ha with rfl | ha
    · exact ⟨b', List.mem_cons_self, ha'⟩
    · obtain ⟨b, hb, hfa⟩ := ih hl ha
      exact ⟨b, List.mem_cons_of_mem _ hb, hfa⟩

/-- What is done with each result, done with their list. -/
theorem mapM_map {γ : Type} (g : β → γ) (h : l.mapM f = .ok bs) :
    l.mapM (fun a => f a >>= fun b => .ok (g b)) = .ok (bs.map g) := by
  induction l generalizing bs with
  | nil =>
    cases h
    rfl
  | cons a l ih =>
    obtain ⟨b, bs', ha, hl, rfl⟩ := mapM_cons_ok.mp h
    exact mapM_cons_ok.mpr ⟨g b, bs'.map g, by rw [ha]; rfl, ih hl, rfl⟩

/-- A filter before the computations, as a filter on their results. -/
theorem mapM_filter {p : α → Bool} {q : β → Bool} (hpq : ∀ a ∈ l, ∀ b, f a = .ok b → q b = p a)
    (h : l.mapM f = .ok bs) : (l.filter p).mapM f = .ok (bs.filter q) := by
  induction l generalizing bs with
  | nil =>
    cases h
    rfl
  | cons a l ih =>
    obtain ⟨b, bs', ha, hl, rfl⟩ := mapM_cons_ok.mp h
    have ih := ih (fun a' ha' => hpq a' (List.mem_cons_of_mem _ ha')) hl
    have hb := hpq a List.mem_cons_self b ha
    rw [List.filter_cons, List.filter_cons, hb]
    split
    · exact mapM_cons_ok.mpr ⟨b, _, ha, ih, rfl⟩
    · exact ih

end mapM

/-! ## Readings -/

variable {ε σ τ α : Type} {read : σ → τ → Except ε (α × σ)}

/-- After a reading, later readings are what they would have been without it. -/
def Resumes [LE τ] (read : σ → τ → Except ε (α × σ)) : Prop :=
  ∀ ⦃s t v s'⦄, read s t = .ok (v, s') → ∀ ⦃t'⦄, t ≤ t' → read s' t' = read s t'

/-- What the meter shows. -/
def shown (read : σ → τ → Except ε (α × σ)) (s : σ) (t : τ) : Except ε α :=
  (read s t).map Prod.fst

theorem shown_ok {s : σ} {t : τ} {v : α} :
    shown read s t = .ok v ↔ ∃ s', read s t = .ok (v, s') := by
  unfold shown
  cases read s t with
  | error e => exact ⟨fun h => (nomatch h), fun ⟨_, h⟩ => (nomatch h)⟩
  | ok r =>
    constructor
    · intro h
      cases h
      exact ⟨r.2, rfl⟩
    · rintro ⟨s', h⟩
      cases h
      rfl

theorem Resumes.mapM [LE τ] (h : Resumes read) {ss : List σ} {t t' : τ} {rs : List (α × σ)}
    (hr : ss.mapM (fun s => read s t) = .ok rs) (ht : t ≤ t') :
    (rs.map Prod.snd).mapM (fun s => read s t') = ss.mapM fun s => read s t' := by
  induction ss generalizing rs with
  | nil =>
    cases hr
    rfl
  | cons s ss ih =>
    obtain ⟨r, rs', hs, hss, rfl⟩ := mapM_cons_ok.mp hr
    rw [List.map_cons, List.mapM_cons, List.mapM_cons, h hs ht, ih hss]

section total

variable [AddMonoid α]

/-- All meters of a list are read; the sum of what they show. -/
def total (read : σ → τ → Except ε (α × σ)) (ss : List σ) (t : τ) : Except ε (α × List σ) := do
  let rs ← ss.mapM fun s => read s t
  return ((rs.map Prod.fst).sum, rs.map Prod.snd)

theorem total_ok {ss ss' : List σ} {t : τ} {v : α} : total read ss t = .ok (v, ss') ↔
    ∃ rs, ss.mapM (fun s => read s t) = .ok rs ∧ v = (rs.map Prod.fst).sum ∧
      ss' = rs.map Prod.snd := by
  unfold total
  cases ss.mapM fun s => read s t with
  | error e => exact ⟨fun h => (nomatch h), fun ⟨_, h, _⟩ => (nomatch h)⟩
  | ok rs =>
    constructor
    · intro h
      cases h
      exact ⟨rs, rfl, rfl, rfl⟩
    · rintro ⟨_, h, rfl, rfl⟩
      cases h
      rfl

/-- Meters that resume do so together. -/
theorem Resumes.total [LE τ] (h : Resumes read) : Resumes (total read) := by
  intro ss t v ss' hread t' ht
  obtain ⟨rs, hrs, -, rfl⟩ := total_ok.mp hread
  unfold Meter.total
  rw [h.mapM hrs ht]

/-- Meters that show nothing can be left out. -/
theorem total_filter {ss ss' : List σ} {t : τ} {v : α} {p : σ → Bool}
    (h0 : ∀ s ∈ ss, p s = false → ∃ s', read s t = .ok (0, s'))
    (h : total read ss t = .ok (v, ss')) : ∃ ss'', total read (ss.filter p) t = .ok (v, ss'') := by
  obtain ⟨rs, hrs, rfl, -⟩ := total_ok.mp h
  obtain ⟨rs', hrs', hsum⟩ : ∃ rs', (ss.filter p).mapM (fun s => read s t) = .ok rs' ∧
      (rs'.map Prod.fst).sum = (rs.map Prod.fst).sum := by
    clear h
    induction ss generalizing rs with
    | nil =>
      cases hrs
      exact ⟨[], rfl, rfl⟩
    | cons s ss ih =>
      obtain ⟨r, rs₁, hs, hss, rfl⟩ := mapM_cons_ok.mp hrs
      obtain ⟨rs', hrs', hsum⟩ := ih (fun s' hs' => h0 s' (List.mem_cons_of_mem _ hs')) rs₁ hss
      cases hp : p s with
      | true =>
        rw [List.filter_cons_of_pos hp]
        refine ⟨r :: rs', mapM_cons_ok.mpr ⟨r, rs', hs, hrs', rfl⟩, ?_⟩
        rw [List.map_cons, List.map_cons, List.sum_cons, List.sum_cons, hsum]
      | false =>
        obtain ⟨s', hs'⟩ := h0 s List.mem_cons_self hp
        cases hs.symm.trans hs'
        rw [List.filter_cons_of_neg (by rw [hp]; exact Bool.false_ne_true)]
        exact ⟨rs', hrs', by rw [List.map_cons, List.sum_cons, zero_add, hsum]⟩
  exact ⟨_, total_ok.mpr ⟨rs', hrs', hsum.symm, rfl⟩⟩

end total

/-! ## Windows -/

/-- The differences over adjacent windows add up. -/
theorem sum_windows {ρ : Type} [AddCommGroup α] {opening closing : ρ → α} {l : List ρ}
    (h : l.IsChain fun r r' => closing r = opening r') :
    ∀ first ∈ l.head?, ∀ last ∈ l.getLast?,
      (l.map fun r => closing r - opening r).sum = closing last - opening first := by
  induction l with
  | nil => exact fun _ h => nomatch h
  | cons r l ih =>
    rintro _ ⟨⟩ last hlast
    cases l with
    | nil =>
      cases hlast
      exact List.sum_singleton ..
    | cons r' l =>
      obtain ⟨hr, hl⟩ := List.isChain_cons_cons.mp h
      have hlast : last ∈ (r' :: l).getLast? := by
        rw [List.getLast?_cons_cons] at hlast
        exact hlast
      rw [List.map_cons, List.sum_cons, ih hl r' rfl last hlast, hr, add_comm, sub_add_sub_cancel]

end Meter
