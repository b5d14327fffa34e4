import Mathlib.Tactic.Positivity
import P300.Dispatch.Pools

/-!
# What pooling and sorting keep

Every intent keeps its strategy and all its fields but the allocation, which stays non-negative; the
order is a permutation.
-/

namespace P300

/-- An intent without negative sizes. -/
structure Intent.NonNeg (intent : Intent) : Prop where
  allocationPct : 0 ≤ intent.allocationPct
  leverage : 0 ≤ intent.leverage
  conviction : 0 ≤ intent.conviction

instance (intent : Intent) : Decidable intent.NonNeg :=
  decidable_of_iff (0 ≤ intent.allocationPct ∧ 0 ≤ intent.leverage ∧ 0 ≤ intent.conviction)
    ⟨fun h => ⟨h.1, h.2.1, h.2.2⟩, fun h => ⟨h.1, h.2, h.3⟩⟩

/-- The same strategy with the same intent, at a non-negative allocation. -/
def Reallocated (item item' : String × Intent) : Prop :=
  item'.1 = item.1 ∧ ∃ alloc, 0 ≤ alloc ∧ item'.2 = item.2.withAllocation alloc

theorem sum_map_nonneg {α : Type} {f : α → ℚ} {l : List α} (h : ∀ a ∈ l, 0 ≤ f a) :
    0 ≤ (l.map f).sum := by
  refine List.sum_nonneg fun x hx => ?_
  obtain ⟨a, ha, rfl⟩ := List.mem_map.mp hx
  exact h a ha

theorem poolShares_nonneg {members : List Intent} (halloc : ∀ m ∈ members, 0 ≤ m.allocationPct)
    (hconv : ∀ m ∈ members, 0 ≤ m.conviction) :
    0 ≤ (poolShares members).1 ∧ ∀ m ∈ members, 0 ≤ poolShare members m := by
  have hconv : ∀ m ∈ members, (0 : ℚ) ≤ m.conviction := fun m hm => by
    exact_mod_cast hconv m hm
  have hsum : 0 ≤ (members.map fun m => (m.conviction : ℚ)).sum := sum_map_nonneg hconv
  constructor
  · rw [poolShares]
    split
    · exact div_nonneg (sum_map_nonneg halloc) (by positivity)
    · exact div_nonneg (sum_map_nonneg fun m hm => mul_nonneg (hconv m hm) (halloc m hm)) hsum
  · intro m hm
    unfold poolShare
    dsimp only
    split
    · positivity
    · exact div_nonneg (hconv m hm) hsum

variable {intents : List (String × Intent)}

theorem pooledItem_allocationPct_nonneg
    (h : ∀ item ∈ intents, 0 ≤ item.2.allocationPct ∧ 0 ≤ item.2.conviction)
    {item : String × Intent} (hitem : item ∈ intents) :
    0 ≤ (pooledItem intents item).2.allocationPct := by
  rw [pooledItem]
  split
  · next hpooled =>
    have hmembers : ∀ m ∈ poolMembers intents item, 0 ≤ m.allocationPct ∧ 0 ≤ m.conviction := by
      intro m hm
      obtain ⟨item', hitem', rfl⟩ := mem_poolMembers hm
      exact h item' hitem'
    obtain ⟨havg, hshares⟩ :=
      poolShares_nonneg (fun m hm => (hmembers m hm).1) fun m hm => (hmembers m hm).2
    exact mul_nonneg (hshares _ (hpooled.self_mem hitem)) havg
  · exact (h item hitem).1

theorem pooledItem_reallocated (h : ∀ item ∈ intents, item.2.NonNeg) {item : String × Intent}
    (hitem : item ∈ intents) : Reallocated item (pooledItem intents item) := by
  have hnonneg := pooledItem_allocationPct_nonneg
    (fun item hitem => ⟨(h item hitem).allocationPct, (h item hitem).conviction⟩) hitem
  obtain ⟨alloc, heq⟩ := pooledItem_eq intents item
  rw [heq] at hnonneg ⊢
  exact ⟨rfl, alloc, hnonneg, rfl⟩

/-- The candidates are the intents in some order, each reallocated. -/
theorem orderedIntents_reallocated (h : ∀ item ∈ intents, item.2.NonNeg) :
    ∃ σ, σ.Perm intents ∧
      List.Forall₂ (fun item c => Reallocated item (c.sleeveId, c.intent)) σ
        (orderedIntents intents) := by
  refine ⟨intents.insertionSort itemLe, List.perm_insertionSort itemLe intents, ?_⟩
  rw [orderedIntents_eq_map, List.forall₂_map_right_iff, List.forall₂_same]
  exact fun item hitem => pooledItem_reallocated h
    ((List.perm_insertionSort itemLe _).mem_iff.mp hitem)

end P300
