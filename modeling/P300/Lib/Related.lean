import Mathlib.Data.List.Forall2

/-!
# Lists related place by place

What a member of one list tells about the other, and relations in a row.
-/

namespace List.Forall₂

variable {α β γ : Type*} {R : α → β → Prop} {S : β → γ → Prop} {T : α → γ → Prop} {l : List α}
  {l' : List β}

theorem mem_right (h : Forall₂ R l l') {b : β} (hb : b ∈ l') : ∃ a ∈ l, R a b := by
  induction h with
  | nil => cases hb
  | cons hab _ ih =>
    rcases mem_cons.mp hb with rfl | hb
    · exact ⟨_, mem_cons_self, hab⟩
    · obtain ⟨a, ha, hr⟩ := ih hb
      exact ⟨a, mem_cons_of_mem _ ha, hr⟩

theorem mem_left (h : Forall₂ R l l') {a : α} (ha : a ∈ l) : ∃ b ∈ l', R a b :=
  h.flip.mem_right ha

theorem comp {l'' : List γ} (hR : Forall₂ R l l') (hS : Forall₂ S l' l'')
    (hT : ∀ a b c, R a b → S b c → T a c) : Forall₂ T l l'' := by
  induction hR generalizing l'' with
  | nil =>
    cases hS
    exact .nil
  | cons hab _ ih =>
    cases hS with
    | cons hbc htail => exact .cons (hT _ _ _ hab hbc) (ih htail)

end List.Forall₂
