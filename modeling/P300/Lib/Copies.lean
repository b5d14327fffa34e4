import Mathlib.Data.List.Induction
import Mathlib.Data.List.Perm.Subperm
import Mathlib.Order.Nat

/-!
# Copies of a log

A log that is read into copies; to append to a copy writes the whole copy over the log. A copy goes
stale when another one is appended to after it was made. Nothing is lost while no stale copy is
appended to, and after that the log stays shorter than what was appended.
-/

namespace Copies

inductive Event (α : Type*)
  | open_
  | append (i : ℕ) (a : α)

structure State (α : Type*) where
  log : List α
  copies : List (List α) := []

variable {α : Type*}

def step (s : State α) : Event α → Option (State α)
  | .open_ => some { s with copies := s.copies ++ [s.log] }
  | .append i a => s.copies[i]?.map fun copy => ⟨copy ++ [a], s.copies.set i (copy ++ [a])⟩

def run (s : State α) (es : List (Event α)) : Option (State α) := es.foldlM step s

def Event.item? : Event α → Option α
  | .open_ => none
  | .append _ a => some a

def Event.isOpen : Event α → Bool
  | .open_ => true
  | .append .. => false

/-- What was appended, in order. -/
def appended (es : List (Event α)) : List α := es.filterMap Event.item?

/-- The number of copies that were made. -/
def opened (es : List (Event α)) : ℕ := es.countP Event.isOpen

/-- Another copy was appended to after the copy was made. -/
def Stale (es : List (Event α)) (i : ℕ) : Prop :=
  ∃ front j a back, es = front ++ .append j a :: back ∧ j ≠ i ∧ i < opened front

/-- No stale copy is appended to. -/
def Current (es : List (Event α)) : Prop :=
  ∀ front i a back, es = front ++ .append i a :: back → ¬ Stale front i

variable {es : List (Event α)} {s s' : State α} {log : List α} {i j : ℕ} {a : α}

theorem current_nil : Current ([] : List (Event α)) := fun _ _ _ _ h =>
  (List.append_ne_nil_of_right_ne_nil _ (List.cons_ne_nil _ _) h.symm).elim

/-- The last event of a list, or one before it. -/
theorem snoc_split {e e' : Event α} {front back : List (Event α)} :
    es ++ [e] = front ++ e' :: back ↔
      (front = es ∧ e' = e ∧ back = []) ∨ ∃ back', back = back' ++ [e] ∧
        es = front ++ e' :: back' := by
  constructor
  · intro h
    rcases List.eq_nil_or_concat back with rfl | ⟨back', e'', rfl⟩
    · obtain ⟨rfl, he⟩ := List.append_inj' h rfl
      exact .inl ⟨rfl, (List.singleton_inj.mp he).symm, rfl⟩
    · rw [List.concat_eq_append, ← List.cons_append, ← List.append_assoc] at h
      obtain ⟨hes, he⟩ := List.append_inj' h rfl
      obtain rfl := List.singleton_inj.mp he
      exact .inr ⟨back', List.concat_eq_append, hes⟩
  · rintro (⟨rfl, rfl, rfl⟩ | ⟨back', rfl, rfl⟩)
    · rfl
    · rw [List.append_assoc, List.cons_append]

theorem stale_snoc {e : Event α} : Stale (es ++ [e]) i ↔
    Stale es i ∨ ∃ j a, e = .append j a ∧ j ≠ i ∧ i < opened es := by
  constructor
  · rintro ⟨front, j, a, back, hes, hj, hi⟩
    rcases snoc_split.mp hes with ⟨rfl, he, -⟩ | ⟨back', -, hes⟩
    · exact .inr ⟨j, a, he.symm, hj, hi⟩
    · exact .inl ⟨front, j, a, back', hes, hj, hi⟩
  · rintro (⟨front, j, a, back, rfl, hj, hi⟩ | ⟨j, a, rfl, hj, hi⟩)
    · exact ⟨front, j, a, back ++ [e], by rw [List.append_assoc, List.cons_append], hj, hi⟩
    · exact ⟨es, j, a, [], rfl, hj, hi⟩

theorem current_snoc {e : Event α} : Current (es ++ [e]) ↔ Current es ∧ ∀ i a, e = .append i a →
    ¬ Stale es i := by
  constructor
  · intro h
    refine ⟨fun front i a back hes => h front i a (back ++ [e]) ?_,
      fun i a he => h es i a [] (by rw [he])⟩
    rw [hes, List.append_assoc, List.cons_append]
  · rintro ⟨h, hlast⟩ front i a back hes
    rcases snoc_split.mp hes with ⟨rfl, he, -⟩ | ⟨back', -, hes⟩
    · exact hlast i a he.symm
    · exact h front i a back' hes

/-- A copy that has not been made yet is not stale. -/
theorem Stale.lt_opened (h : Stale es i) : i < opened es := by
  obtain ⟨front, j, a, back, rfl, -, hi⟩ := h
  rw [opened, List.countP_append]
  exact Nat.lt_add_right _ hi

@[simp] theorem appended_snoc_open : appended (es ++ [.open_]) = appended es :=
  List.filterMap_append.trans (List.append_nil _)

@[simp] theorem appended_snoc_append : appended (es ++ [.append i a]) = appended es ++ [a] :=
  List.filterMap_append

@[simp] theorem opened_snoc_open : opened (es ++ [.open_]) = opened es + 1 := List.countP_append

@[simp] theorem opened_snoc_append : opened (es ++ [.append i a]) = opened es := List.countP_append

@[simp] theorem current_snoc_open : Current (es ++ [.open_]) ↔ Current es :=
  current_snoc.trans (and_iff_left fun i a h => by cases h)

@[simp] theorem current_snoc_append :
    Current (es ++ [.append i a]) ↔ Current es ∧ ¬ Stale es i := by
  rw [current_snoc]
  refine and_congr_right fun _ => ⟨fun h => h i a rfl, ?_⟩
  rintro h j b heq
  cases heq
  exact h

@[simp] theorem stale_snoc_open : Stale (es ++ [.open_]) i ↔ Stale es i :=
  stale_snoc.trans (or_iff_left (by rintro ⟨j, a, h, -⟩; cases h))

/-- The copy of an event after the event. -/
theorem getElem?_set_cases {copies : List (List α)} {copy copy' : List α}
    (h : (copies.set i copy)[j]? = some copy') :
    (j = i ∧ copy' = copy) ∨ j ≠ i ∧ copies[j]? = some copy' := by
  rw [List.getElem?_set] at h
  split at h
  · next hij =>
    split at h
    · exact .inl ⟨hij.symm, (Option.some.inj h).symm⟩
    · cases h
  · next hij => exact .inr ⟨Ne.symm hij, h⟩

theorem getElem?_snoc_cases {copies : List (List α)} {copy copy' : List α}
    (h : (copies ++ [copy])[i]? = some copy') :
    copies[i]? = some copy' ∨ copy' = copy := by
  rw [List.getElem?_append] at h
  split at h
  · exact .inl h
  · exact .inr (List.mem_singleton.mp (List.mem_of_getElem? h))

/-! ## Current appends only -/

/-- The log holds everything, and a copy that is not stale is the log. -/
structure Synced (log : List α) (es : List (Event α)) (s : State α) : Prop where
  log_eq : s.log = log ++ appended es
  fresh : ∀ i copy, s.copies[i]? = some copy → ¬ Stale es i → copy = s.log
  stale : ∀ i copy, s.copies[i]? = some copy → Stale es i → copy.length < s.log.length

theorem Synced.length_le (H : Synced log es s) {copy : List α} (hcopy : copy ∈ s.copies) :
    copy.length ≤ s.log.length := by
  obtain ⟨j, hj⟩ := List.mem_iff_getElem?.mp hcopy
  by_cases hs : Stale es j
  · exact (H.stale j copy hj hs).le
  · exact (H.fresh j copy hj hs) ▸ le_rfl

theorem Synced.open_ (H : Synced log es s) (hlength : s.copies.length = opened es) :
    Synced log (es ++ [.open_]) { s with copies := s.copies ++ [s.log] } where
  log_eq := H.log_eq.trans (by rw [appended_snoc_open])
  fresh i copy hcopy hnot := by
    rcases getElem?_snoc_cases hcopy with hold | rfl
    · exact H.fresh i copy hold (mt stale_snoc_open.mpr hnot)
    · rfl
  stale i copy hcopy hs := by
    rw [stale_snoc_open] at hs
    rw [List.getElem?_append_left (hlength ▸ hs.lt_opened)] at hcopy
    exact H.stale i copy hcopy hs

theorem Synced.append (H : Synced log es s) (hlength : s.copies.length = opened es) {copy : List α}
    (hcopy : s.copies[i]? = some copy) (hi : ¬ Stale es i) :
    Synced log (es ++ [.append i a]) ⟨copy ++ [a], s.copies.set i (copy ++ [a])⟩ := by
  obtain rfl : copy = s.log := H.fresh i copy hcopy hi
  refine ⟨?_, fun j copy' hcopy' hnot => ?_, fun j copy' hcopy' hs => ?_⟩
  · rw [appended_snoc_append, H.log_eq, List.append_assoc]
  · rcases getElem?_set_cases hcopy' with ⟨-, rfl⟩ | ⟨hj, hold⟩
    · rfl
    · refine absurd (stale_snoc.mpr (.inr ⟨i, a, rfl, Ne.symm hj, ?_⟩)) hnot
      exact hlength ▸ (List.getElem?_eq_some_iff.mp hold).1
  · rcases getElem?_set_cases hcopy' with ⟨rfl, rfl⟩ | ⟨hj, hold⟩
    · rcases stale_snoc.mp hs with h | ⟨k, b, heq, hne, -⟩
      · exact absurd h hi
      · cases heq
        exact absurd rfl hne
    · rw [List.length_append, List.length_singleton]
      exact Nat.lt_succ_of_le (H.length_le (List.mem_of_getElem? hold))

/-! ## After a stale append -/

/-- The log and all copies are shorter than a length. -/
structure Short (n : ℕ) (s : State α) : Prop where
  log : s.log.length < n
  copies : ∀ copy ∈ s.copies, copy.length < n

theorem Short.open_ {n : ℕ} (H : Short n s) : Short n { s with copies := s.copies ++ [s.log] } where
  log := H.log
  copies copy hcopy := by
    rcases List.mem_append.mp hcopy with hcopy | hcopy
    · exact H.copies copy hcopy
    · exact List.mem_singleton.mp hcopy ▸ H.log

theorem Short.of_append {n : ℕ} {copy : List α} (hcopy : copy.length < n)
    (hle : ∀ c ∈ s.copies, c.length ≤ n) :
    Short (n + 1) ⟨copy ++ [a], s.copies.set i (copy ++ [a])⟩ := by
  have hnew : (copy ++ [a]).length < n + 1 := by
    rw [List.length_append, List.length_singleton]
    exact Nat.add_lt_add_right hcopy 1
  refine ⟨hnew, fun copy' hcopy' => ?_⟩
  rcases List.mem_or_eq_of_mem_set hcopy' with hold | rfl
  · exact Nat.lt_succ_of_le (hle copy' hold)
  · exact hnew

/-! ## Runs -/

/-- What holds after a run. -/
structure Inv (log : List α) (es : List (Event α)) (s : State α) : Prop where
  length : s.copies.length = opened es
  synced : Current es → Synced log es s
  short : ¬ Current es → Short (log ++ appended es).length s

theorem inv_init (log : List α) : Inv log [] ⟨log, []⟩ where
  length := rfl
  synced _ := ⟨(List.append_nil log).symm, fun _ _ h _ => by simp at h, fun _ _ h _ => by simp at h⟩
  short h := (h current_nil).elim

theorem Inv.append (H : Inv log es s) {copy : List α} (hcopy : s.copies[i]? = some copy) :
    Inv log (es ++ [.append i a]) ⟨copy ++ [a], s.copies.set i (copy ++ [a])⟩ where
  length := by rw [List.length_set, H.length, opened_snoc_append]
  synced hcur := by
    obtain ⟨hcur, hi⟩ := current_snoc_append.mp hcur
    exact (H.synced hcur).append H.length hcopy hi
  short hnot := by
    rw [current_snoc_append] at hnot
    rw [appended_snoc_append, ← List.append_assoc, List.length_append, List.length_singleton]
    have hmem := List.mem_of_getElem? hcopy
    by_cases hcur : Current es
    · have hs : Stale es i := by_contra fun hs => hnot ⟨hcur, hs⟩
      rw [← (H.synced hcur).log_eq]
      exact Short.of_append ((H.synced hcur).stale i copy hcopy hs) fun c hc =>
        (H.synced hcur).length_le hc
    · exact Short.of_append ((H.short hcur).copies copy hmem) fun c hc =>
        ((H.short hcur).copies c hc).le

theorem Inv.step (H : Inv log es s) {e : Event α} (h : step s e = some s') :
    Inv log (es ++ [e]) s' := by
  cases e with
  | open_ =>
    cases h
    refine ⟨?_, fun hcur => ?_, fun hnot => ?_⟩
    · rw [List.length_append, H.length, opened_snoc_open, List.length_singleton]
    · exact (H.synced (current_snoc_open.mp hcur)).open_ H.length
    · rw [appended_snoc_open]
      exact (H.short (mt current_snoc_open.mpr hnot)).open_
  | append i a =>
    obtain ⟨copy, hcopy, rfl⟩ := Option.map_eq_some_iff.mp h
    exact H.append hcopy

theorem inv_run (h : run ⟨log, []⟩ es = some s) : Inv log es s := by
  induction es using List.reverseRecOn generalizing s with
  | nil =>
    cases h
    exact inv_init log
  | append_singleton es e ih =>
    rw [run, List.foldlM_append] at h
    obtain ⟨s', hs', h⟩ := Option.bind_eq_some_iff.mp h
    rw [List.foldlM_cons] at h
    obtain ⟨s'', hs'', h⟩ := Option.bind_eq_some_iff.mp h
    cases h
    exact (ih hs').step hs''

/-- Nothing is lost just when no stale copy was appended to. -/
theorem subperm_iff (h : run ⟨log, []⟩ es = some s) :
    List.Subperm (log ++ appended es) s.log ↔ Current es := by
  constructor
  · intro hsub
    by_contra hcur
    exact ((inv_run h).short hcur).log.not_ge hsub.length_le
  · intro hcur
    rw [((inv_run h).synced hcur).log_eq]

end Copies
