import Mathlib.Data.Finset.Card
import Mathlib.Data.Finset.Max
import Mathlib.Order.Interval.Finset.Basic

/-!
# Retention

A collection grows, and now and then a rule deletes what it does not select. A rule is stable if
what it selects does not depend on elements that it would not have kept (`Stable.absorb`), and if
one more element brings back none that it had dropped (`Stable.grow`). For such a rule it makes no
difference when the collection was pruned (`Stable.run_prune`).
-/

namespace Retention

variable {α : Type*}

structure Stable [DecidableEq α] (keep : Finset α → Finset α) : Prop where
  subset : ∀ s, keep s ⊆ s
  absorb : ∀ s t, keep s ⊆ t → t ⊆ s → keep t = keep s
  grow : ∀ a s, keep (insert a s) ⊆ insert a (keep s)

namespace Stable

variable [DecidableEq α] {keep keep' : Finset α → Finset α}

theorem filter (p : α → Prop) [DecidablePred p] : Stable (Finset.filter p) where
  subset s := Finset.filter_subset p s
  absorb s t hst hts := by
    refine Finset.Subset.antisymm (Finset.filter_subset_filter p hts) fun a ha => ?_
    exact Finset.mem_filter.mpr ⟨hst ha, (Finset.mem_filter.mp ha).2⟩
  grow a s := by
    rw [Finset.filter_insert]
    split
    · exact subset_rfl
    · exact Finset.subset_insert a _

theorem union (h : Stable keep) (h' : Stable keep') : Stable fun s => keep s ∪ keep' s where
  subset s := Finset.union_subset (h.subset s) (h'.subset s)
  absorb s t hst hts := by
    obtain ⟨hkeep, hkeep'⟩ := Finset.union_subset_iff.mp hst
    rw [h.absorb s t hkeep hts, h'.absorb s t hkeep' hts]
  grow a s := by
    intro b hb
    rcases Finset.mem_union.mp hb with hb | hb
    · exact Finset.insert_subset_insert a Finset.subset_union_left (h.grow a s hb)
    · exact Finset.insert_subset_insert a Finset.subset_union_right (h'.grow a s hb)

/-- A rule that looks at the elements of one kind only. -/
theorem among (h : Stable keep) (p : α → Prop) [DecidablePred p] :
    Stable fun s => keep (s.filter p) where
  subset s := (h.subset _).trans (Finset.filter_subset p s)
  absorb s t hst hts := by
    refine h.absorb _ _ (fun a ha => ?_) (Finset.filter_subset_filter p hts)
    exact Finset.mem_filter.mpr ⟨hst ha, (Finset.mem_filter.mp (h.subset _ ha)).2⟩
  grow a s := by
    rw [Finset.filter_insert]
    split
    · exact h.grow a _
    · exact Finset.subset_insert a _

/-! ## Runs -/

/-- What is there after some additions, each followed or not by a deletion of what `keep` does not
select. -/
def run (keep : Finset α → Finset α) (s : Finset α) (events : List (α × Bool)) : Finset α :=
  events.foldl (fun s e => if e.2 then keep (insert e.1 s) else insert e.1 s) s

/-- All elements ever added. -/
def all (s : Finset α) (events : List (α × Bool)) : Finset α :=
  events.foldl (fun s e => insert e.1 s) s

theorem all_eq (s : Finset α) (events : List (α × Bool)) :
    all s events = s ∪ (events.map Prod.fst).toFinset := by
  induction events generalizing s with
  | nil => simp [all]
  | cons e events ih =>
    rw [all, List.foldl_cons, ← all, ih, List.map_cons, List.toFinset_cons, Finset.insert_union,
      Finset.union_insert]

/-- Nothing is lost that the rule selects from all. -/
theorem keep_all_subset (h : Stable keep) {s t : Finset α} (hs : keep t ⊆ s) (hst : s ⊆ t)
    (events : List (α × Bool)) :
    keep (all t events) ⊆ run keep s events ∧ run keep s events ⊆ all t events := by
  induction events generalizing s t with
  | nil => exact ⟨hs, hst⟩
  | cons e events ih =>
    have hadd : keep (insert e.1 t) ⊆ insert e.1 s :=
      (h.grow e.1 t).trans (Finset.insert_subset_insert _ hs)
    have hsub : insert e.1 s ⊆ insert e.1 t := Finset.insert_subset_insert _ hst
    rw [run, all, List.foldl_cons, List.foldl_cons]
    split
    · apply ih
      · rw [h.absorb _ _ hadd hsub]
      · exact (h.subset _).trans hsub
    · exact ih hadd hsub

/-- A last deletion leaves what the rule selects from all, whenever the earlier ones were. -/
theorem run_prune (h : Stable keep) (s : Finset α) (events : List (α × Bool)) :
    keep (run keep s events) = keep (all s events) := by
  obtain ⟨hkeep, hsub⟩ := h.keep_all_subset (h.subset s) subset_rfl events
  exact h.absorb _ _ hkeep hsub

/-- A second deletion deletes nothing. -/
theorem idem (h : Stable keep) (s : Finset α) : keep (keep s) = keep s :=
  h.absorb _ _ subset_rfl (h.subset s)

end Stable

/-! ## The newest elements -/

section newest

variable [LinearOrder α]

/-- The `n` greatest elements. -/
def newest (n : ℕ) (s : Finset α) : Finset α := s.filter fun a => (s.filter (a < ·)).card < n

theorem mem_newest {n : ℕ} {s : Finset α} {a : α} :
    a ∈ newest n s ↔ a ∈ s ∧ (s.filter (a < ·)).card < n := Finset.mem_filter

/-- An element that is not among the newest has `n` newer ones, also if others are gone. -/
theorem le_card_of_not_mem_newest {n : ℕ} {s t : Finset α} (hst : newest n s ⊆ t) {a : α}
    (ha : a ∈ s) (hold : a ∉ newest n s) : n ≤ (t.filter (a < ·)).card := by
  -- the newest of the elements that are not kept
  obtain ⟨b, hb, hmax⟩ := (s.filter fun b => b ∉ newest n s).exists_max_image id
    ⟨a, Finset.mem_filter.mpr ⟨ha, hold⟩⟩
  obtain ⟨hbs, hbold⟩ := Finset.mem_filter.mp hb
  have hab : a ≤ b := hmax a (Finset.mem_filter.mpr ⟨ha, hold⟩)
  have hnewer : s.filter (b < ·) ⊆ t.filter (a < ·) := by
    intro c hc
    obtain ⟨hcs, hbc⟩ := Finset.mem_filter.mp hc
    refine Finset.mem_filter.mpr ⟨hst ?_, hab.trans_lt hbc⟩
    by_contra hcold
    exact (hmax c (Finset.mem_filter.mpr ⟨hcs, hcold⟩)).not_gt hbc
  calc n ≤ (s.filter (b < ·)).card := by
        by_contra hlt
        exact hbold (mem_newest.mpr ⟨hbs, not_le.mp hlt⟩)
    _ ≤ (t.filter (a < ·)).card := Finset.card_le_card hnewer

theorem stable_newest [DecidableEq α] (n : ℕ) : Stable (newest n : Finset α → Finset α) where
  subset s := Finset.filter_subset _ s
  absorb s t hst hts := by
    ext a
    constructor
    · intro ha
      obtain ⟨hat, hcard⟩ := mem_newest.mp ha
      by_contra hold
      exact (le_card_of_not_mem_newest hst (hts hat) hold).not_gt hcard
    · intro ha
      obtain ⟨_, hcard⟩ := mem_newest.mp ha
      exact mem_newest.mpr ⟨hst ha,
        (Finset.card_le_card (Finset.filter_subset_filter _ hts)).trans_lt hcard⟩
  grow a s := by
    intro b hb
    obtain ⟨hmem, hcard⟩ := mem_newest.mp hb
    rcases Finset.mem_insert.mp hmem with rfl | hbs
    · exact Finset.mem_insert_self ..
    · refine Finset.mem_insert_of_mem (mem_newest.mpr ⟨hbs, lt_of_le_of_lt ?_ hcard⟩)
      exact Finset.card_le_card (Finset.filter_subset_filter _ (Finset.subset_insert a s))

/-- The end of a list in order. -/
theorem mem_drop_iff [DecidableEq α] {l : List α} (hl : l.Pairwise (· < ·)) (n : ℕ) (a : α) :
    a ∈ l.drop (l.length - n) ↔ a ∈ newest n l.toFinset := by
  have hnodup : (l.filter (a < ·)).Nodup := (hl.imp ne_of_lt).filter _
  have hcard : (l.toFinset.filter (a < ·)).card = (l.filter (a < ·)).length := by
    rw [← List.toFinset_card_of_nodup hnodup, List.toFinset_filter]
    simp only [decide_eq_true_eq]
  rw [mem_newest, hcard, List.mem_toFinset]
  clear hcard hnodup
  induction l with
  | nil => simp
  | cons b l ih =>
    obtain ⟨hb, hl⟩ := List.pairwise_cons.mp hl
    rw [List.length_cons]
    by_cases hn : l.length < n
    · -- the whole list
      have hlen : (List.filter (fun c => decide (a < c)) (b :: l)).length < n ∨ a ∉ b :: l := by
        by_cases ha : a ∈ b :: l
        · left
          refine lt_of_lt_of_le (List.length_filter_lt_length_iff_exists.mpr ⟨a, ha, by simp⟩) ?_
          rw [List.length_cons]
          omega
        · exact .inr ha
      rw [Nat.sub_eq_zero_of_le hn, List.drop_zero]
      tauto
    · obtain ⟨m, hm⟩ : ∃ m, l.length + 1 - n = m + 1 := ⟨l.length - n, by omega⟩
      rw [hm, List.drop_succ_cons, show m = l.length - n by omega]
      refine (ih hl).trans ?_
      by_cases hab : a = b
      · subst hab
        have hall : l.filter (a < ·) = l :=
          List.filter_eq_self.mpr fun c hc => by simpa using hb c hc
        have hmem : a ∉ l := fun ha => lt_irrefl a (hb a ha)
        rw [List.filter_cons_of_neg (by simp), hall]
        simp [hmem, hn]
      · rw [List.mem_cons]
        have hfilter : a ∈ l → (b :: l).filter (a < ·) = l.filter (a < ·) := fun ha =>
          List.filter_cons_of_neg (by simpa using (hb a ha).le)
        constructor
        · rintro ⟨ha, hcard⟩
          exact ⟨.inr ha, by rwa [hfilter ha]⟩
        · rintro ⟨ha, hcard⟩
          have ha := ha.resolve_left hab
          exact ⟨ha, by rwa [hfilter ha] at hcard⟩

end newest

end Retention
