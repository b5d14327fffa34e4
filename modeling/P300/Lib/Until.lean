import Mathlib.Data.List.Basic

/-!
# Traces that agree until one stops

Two runs of one program from states that `g` relates go through related points until the first run
comes to a point where it stops; from there on nothing is known of the second one.
-/

/-- The traces agree, up to `g`, up to the first point with the property `P`, and at it. -/
inductive AgreeUntil {α : Type*} (P : α → Prop) (g : α → α) : List α → List α → Prop
  | nil : AgreeUntil P g [] []
  | stop {a : α} (l l' : List α) : P a → AgreeUntil P g (a :: l) (g a :: l')
  | cons (a : α) {l l' : List α} : AgreeUntil P g l l' → AgreeUntil P g (a :: l) (g a :: l')

namespace AgreeUntil

variable {α : Type*} {P : α → Prop} {g : α → α} {l l' m m' : List α}

theorem append (h : AgreeUntil P g l l') (hm : (∀ a ∈ l, ¬ P a) → AgreeUntil P g m m') :
    AgreeUntil P g (l ++ m) (l' ++ m') := by
  induction h with
  | nil => exact hm fun a ha => by cases ha
  | stop l l' ha => exact .stop _ _ ha
  | @cons a l l' _ ih =>
    by_cases ha : P a
    · exact .stop _ _ ha
    · exact .cons a (ih fun hl => hm (List.forall_mem_cons.mpr ⟨ha, hl⟩))

/-- Up to a point that no stop comes before, the traces agree. -/
theorem at_point (h : AgreeUntil P g l l') {before after : List α} {a : α}
    (hl : l = before ++ a :: after) (hbefore : ∀ b ∈ before, ¬ P b) :
    ∃ after', l' = before.map g ++ g a :: after' := by
  induction h generalizing before with
  | nil => exact absurd hl.symm (List.append_ne_nil_of_right_ne_nil _ (List.cons_ne_nil _ _))
  | @stop b l l' hb =>
    cases before with
    | nil =>
      cases hl
      exact ⟨l', rfl⟩
    | cons b' before =>
      cases hl
      exact absurd hb (hbefore _ List.mem_cons_self)
  | @cons b l l' _ ih =>
    cases before with
    | nil =>
      cases hl
      exact ⟨l', rfl⟩
    | cons b' before =>
      cases hl
      obtain ⟨after', hafter'⟩ := ih rfl fun c hc => hbefore c (List.mem_cons_of_mem _ hc)
      exact ⟨after', by rw [hafter', List.map_cons, List.cons_append]⟩

end AgreeUntil
