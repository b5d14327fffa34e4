import Mathlib.Data.List.Induction
import Mathlib.Order.Lattice

/-!
# Hysteresis

A switch with two thresholds goes on below the lower one, off above the upper one, and stays as it
is between them or without a reading. Where it stands is told by the last reading that decided it.
-/

namespace Hysteresis

variable {α : Type*} [LinearOrder α] {lo hi : α} {on : Bool} {xs : List (Option α)}

/-- The switch after a reading. -/
def next (lo hi : α) (on : Bool) : Option α → Bool
  | none => on
  | some x => if on then x ≤ hi else x < lo

/-- A reading below the lower threshold, and none above the upper one since. -/
def Low (lo hi : α) (xs : List (Option α)) : Prop :=
  ∃ pre x post, xs = pre ++ some x :: post ∧ x < lo ∧ ∀ y, some y ∈ post → y ≤ hi

theorem not_low_nil : ¬ Low lo hi [] := by
  rintro ⟨pre, x, post, h, -⟩
  exact List.append_ne_nil_of_right_ne_nil pre (List.cons_ne_nil (some x) post) h.symm

/-- One more reading. -/
theorem low_snoc {r : Option α} : Low lo hi (xs ++ [r]) ↔
    (∃ x, r = some x ∧ x < lo) ∨ Low lo hi xs ∧ ∀ x, r = some x → x ≤ hi := by
  constructor
  · rintro ⟨pre, x, post, heq, hx, hpost⟩
    rcases List.eq_nil_or_concat post with rfl | ⟨post, y, rfl⟩
    · obtain ⟨-, hr⟩ := List.append_inj' heq rfl
      exact .inl ⟨x, List.singleton_inj.mp hr, hx⟩
    · rw [List.concat_eq_append, ← List.cons_append, ← List.append_assoc] at heq
      obtain ⟨hxs, hr⟩ := List.append_inj' heq rfl
      rw [List.concat_eq_append] at hpost
      refine .inr ⟨⟨pre, x, post, hxs, hx, fun y hy => hpost y (List.mem_append_left _ hy)⟩, ?_⟩
      rintro z rfl
      exact hpost z (List.mem_append_right _ (hr ▸ List.mem_singleton_self _))
  · rintro (⟨x, rfl, hx⟩ | ⟨⟨pre, x, post, rfl, hx, hpost⟩, hr⟩)
    · exact ⟨xs, x, [], rfl, hx, fun y hy => nomatch hy⟩
    · refine ⟨pre, x, post ++ [r], by rw [List.append_assoc, List.cons_append], hx, fun y hy => ?_⟩
      rcases List.mem_append.mp hy with hy | hy
      · exact hpost y hy
      · exact hr y (List.mem_singleton.mp hy).symm

/-- A switch that starts off is on exactly after a reading below the lower threshold that no reading
above the upper one has followed. -/
theorem on_iff (h : lo ≤ hi) : xs.foldl (next lo hi) false = true ↔ Low lo hi xs := by
  induction xs using List.reverseRecOn with
  | nil => exact iff_of_false Bool.false_ne_true not_low_nil
  | append_singleton xs r ih =>
    rw [List.foldl_append, List.foldl_cons, List.foldl_nil, low_snoc]
    cases r with
    | none =>
      rw [next, ih]
      exact ⟨fun hlow => .inr ⟨hlow, fun _ hx => nomatch hx⟩,
        fun hr => hr.elim (fun ⟨_, hx, _⟩ => nomatch hx) And.left⟩
    | some x =>
      have hsome : (∃ y, some x = some y ∧ y < lo) ↔ x < lo :=
        ⟨fun ⟨y, hy, hlt⟩ => Option.some_inj.mp hy ▸ hlt, fun hlt => ⟨x, rfl, hlt⟩⟩
      have hall : (∀ y, some x = some y → y ≤ hi) ↔ x ≤ hi :=
        ⟨fun hy => hy x rfl, fun hle y hy => Option.some_inj.mp hy ▸ hle⟩
      rw [hsome, hall, ← ih, next]
      cases xs.foldl (next lo hi) false with
      | false => simp
      | true => simpa using fun hlt : x < lo => (hlt.trans_le h).le

end Hysteresis
