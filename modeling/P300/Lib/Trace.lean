import Mathlib.Data.List.Induction

/-!
# Traces

A machine takes an action in a state or refuses it. A trace of actions is run from a state until the
first refusal; what one action keeps, a trace keeps.
-/

namespace Trace

variable {σ α : Type*} {step : σ → α → Option σ} {s s' : σ} {a : α} {acts acts' : List α}

/-- The state after the actions, if none is refused. -/
def run (step : σ → α → Option σ) (s : σ) (acts : List α) : Option σ := acts.foldlM step s

theorem run_append : run step s (acts ++ acts') = (run step s acts).bind fun s' =>
    run step s' acts' :=
  List.foldlM_append

theorem run_snoc : run step s (acts ++ [a]) = (run step s acts).bind fun s' => step s' a := by
  rw [run_append]
  congr 1
  funext s'
  exact bind_pure (step s' a)

/-- The last action of a trace is taken where the trace before it leads. -/
theorem exists_of_run_snoc (h : run step s (acts ++ [a]) = some s') :
    ∃ s₁, run step s acts = some s₁ ∧ step s₁ a = some s' := by
  rw [run_snoc] at h
  exact Option.bind_eq_some_iff.mp h

/-- What holds first and is kept by each action holds after every trace. -/
theorem invariant {P : σ → Prop} (hstep : ∀ s a s', P s → step s a = some s' → P s') (hs : P s)
    (h : run step s acts = some s') : P s' := by
  induction acts using List.reverseRecOn generalizing s' with
  | nil =>
    cases h
    exact hs
  | append_singleton acts a ih =>
    obtain ⟨s₁, hrun, hlast⟩ := exists_of_run_snoc h
    exact hstep s₁ a s' (ih hrun) hlast

/-- An invariant that speaks of the actions so far. -/
theorem invariant_acts {P : List α → σ → Prop}
    (hstep : ∀ acts s a s', P acts s → step s a = some s' → P (acts ++ [a]) s') (hs : P [] s)
    (h : run step s acts = some s') : P acts s' := by
  induction acts using List.reverseRecOn generalizing s' with
  | nil =>
    cases h
    exact hs
  | append_singleton acts a ih =>
    obtain ⟨s₁, hrun, hlast⟩ := exists_of_run_snoc h
    exact hstep acts s₁ a s' (ih hrun) hlast

/-! ## Logs -/

variable {β : Type*} {P : List β → β → Prop} {log : List β} {e : β}

/-- Each entry of the log is allowed after the entries before it. -/
def Allowed (P : List β → β → Prop) (log : List β) : Prop :=
  ∀ pre e post, log = pre ++ e :: post → P pre e

theorem Allowed.nil : Allowed P [] := fun _ _ _ h => by
  have := congrArg List.length h
  simp at this

theorem Allowed.snoc (H : Allowed P log) (he : P log e) : Allowed P (log ++ [e]) := by
  intro pre e' post h
  rcases post.eq_nil_or_concat with rfl | ⟨post, e'', rfl⟩
  · obtain ⟨rfl, heq⟩ := List.append_inj' h rfl
    cases heq
    exact he
  · rw [List.concat_eq_append, ← List.cons_append, ← List.append_assoc] at h
    exact H pre e' post (List.append_inj' h rfl).1

end Trace
