import Mathlib.Algebra.Order.Field.Rat
import Mathlib.Combinatorics.Pigeonhole
import Mathlib.Tactic.Linarith

/-!
# Requests of several workers

A log has the requests of `c` workers in the order of their times. If each worker keeps a gap
between its own requests, `c + 1` requests in a row span that gap at least: two of them are of one
worker.
-/

namespace Spaced

variable {c : ℕ} {gap : ℚ}

/-- Requests of the workers below `c`, each by its worker and its time. -/
structure Log (c : ℕ) (gap : ℚ) (log : List (ℕ × ℚ)) : Prop where
  owner : ∀ r ∈ log, r.1 < c
  ordered : log.Pairwise fun a b => a.2 ≤ b.2
  apart : log.Pairwise fun a b => a.1 = b.1 → a.2 + gap ≤ b.2

variable {log : List (ℕ × ℚ)}

theorem Log.nil : Log c gap [] := ⟨fun _ h => (nomatch h), .nil, .nil⟩

/-- One more request. -/
theorem Log.snoc (H : Log c gap log) {r : ℕ × ℚ} (howner : r.1 < c) (hlast : ∀ q ∈ log, q.2 ≤ r.2)
    (hgap : ∀ q ∈ log, q.1 = r.1 → q.2 + gap ≤ r.2) : Log c gap (log ++ [r]) where
  owner q hq := by
    rcases List.mem_append.mp hq with hq | hq
    · exact H.owner q hq
    · rw [List.mem_singleton.mp hq]
      exact howner
  ordered := List.pairwise_append.mpr ⟨H.ordered, List.pairwise_singleton .., fun q hq r' hr' => by
    rw [List.mem_singleton.mp hr']
    exact hlast q hq⟩
  apart := List.pairwise_append.mpr ⟨H.apart, List.pairwise_singleton .., fun q hq r' hr' heq => by
    rw [List.mem_singleton.mp hr'] at heq ⊢
    exact hgap q hq heq⟩

theorem Log.le (H : Log c gap log) {i j : ℕ} (hij : i ≤ j) (hi : i < log.length)
    (hj : j < log.length) : log[i].2 ≤ log[j].2 := by
  rcases hij.eq_or_lt with rfl | hlt
  · exact le_rfl
  · exact List.pairwise_iff_getElem.mp H.ordered i j hi hj hlt

/-- `c` requests after a request, the gap is over. -/
theorem Log.span (H : Log c gap log) {i : ℕ} (h : i < log.length) (hi : i + c < log.length) :
    log[i].2 + gap ≤ log[i + c].2 := by
  -- of the `c + 1` requests from `i` on, two are of one worker
  have hmaps : ∀ k ∈ Finset.range (c + 1), (log[i + k]?.map Prod.fst).getD 0 ∈ Finset.range c := by
    intro k hk
    have hk' : i + k < log.length := by
      have := Finset.mem_range.mp hk
      omega
    rw [List.getElem?_eq_getElem hk', Finset.mem_range]
    exact H.owner _ (List.getElem_mem hk')
  obtain ⟨j, hj, k, hk, hne, heq⟩ := Finset.exists_ne_map_eq_of_card_lt_of_maps_to
    (by rw [Finset.card_range, Finset.card_range]; exact Nat.lt_succ_self c) hmaps
  have key : ∀ j k, j < k → k < c + 1 → (log[i + j]?.map Prod.fst).getD 0 =
      (log[i + k]?.map Prod.fst).getD 0 → log[i].2 + gap ≤ log[i + c].2 := by
    intro j k hjk hk heq
    have hk' : i + k < log.length := by omega
    have hj' : i + j < log.length := by omega
    rw [List.getElem?_eq_getElem hk', List.getElem?_eq_getElem hj'] at heq
    have hgap := List.pairwise_iff_getElem.mp H.apart (i + j) (i + k) hj' hk' (by omega) heq
    have h₁ := H.le (Nat.le_add_right i j) h hj'
    have h₂ := H.le (Nat.add_le_add_left (Nat.lt_succ_iff.mp hk) i) hk' hi
    linarith
  rw [Finset.mem_range] at hj hk
  rcases lt_or_gt_of_ne hne with hlt | hlt
  · exact key j k hlt hk heq
  · exact key k j hlt hj heq.symm

end Spaced
