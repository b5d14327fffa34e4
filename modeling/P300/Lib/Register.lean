import Mathlib.Data.List.Basic
import Mathlib.Order.Basic

/-!
# The history of a register

Several clients read one register and write it, and a history lists what they have done, the latest
event first. What the register holds, what a client wrote last and what it has read since are
functions of the history. A client sees another one if it reads, between two of its writes, a write
of the other that is larger than its own.
-/

namespace Register

/-- A client reads the register, fails to read it, or writes it. -/
inductive Event (ι V : Type*)
  | read (i : ι)
  | lost (i : ι)
  | write (i : ι) (v : V)

variable {ι V : Type*} {h l : List (Event ι V)} {i j : ι} {u v w : V}

/-- The client of a write. -/
def Event.writer? : Event ι V → Option ι
  | .write i _ => some i
  | _ => none

/-- The client of a read, also of one that fails. -/
def Event.reader? : Event ι V → Option ι
  | .read i | .lost i => some i
  | .write .. => none

/-- The last write. -/
def cell : List (Event ι V) → Option (ι × V)
  | [] => none
  | .write i v :: _ => some (i, v)
  | _ :: h => cell h

@[simp] theorem cell_write : cell (.write i v :: h) = some (i, v) := rfl

theorem cell_append (hl : ∀ e ∈ l, e.writer? = none) : cell (l ++ h) = cell h := by
  induction l with
  | nil => rfl
  | cons e l ih =>
    obtain ⟨he, htail⟩ := List.forall_mem_cons.mp hl
    cases e with
    | read | lost => exact ih htail
    | write => cases he

theorem cell_eq_some (hc : cell h = some (i, v)) :
    ∃ l h', h = l ++ .write i v :: h' ∧ ∀ e ∈ l, e.writer? = none := by
  induction h with
  | nil => cases hc
  | cons e h ih =>
    cases e with
    | read | lost =>
      obtain ⟨l, h', rfl, hl⟩ := ih hc
      exact ⟨_ :: l, h', rfl, List.forall_mem_cons.mpr ⟨rfl, hl⟩⟩
    | write =>
      cases hc
      exact ⟨[], h, rfl, List.forall_mem_nil _⟩

/-! ## Seeing another client -/

section sees

variable [LT V]

/-- Before its last write the client read a write of another one that came after its own previous
write and is larger. -/
def Sees (i : ι) (h : List (Event ι V)) : Prop :=
  ∃ j u v w l₁ l₂ l₃ l₄ l₅, j ≠ i ∧ u < v ∧
    h = l₁ ++ .write i w :: (l₂ ++ .read i :: (l₃ ++ .write j v :: (l₄ ++ .write i u :: l₅))) ∧
    (∀ e ∈ l₁, e.writer? ≠ some i) ∧
    (∀ e ∈ l₂, e.writer? ≠ some i ∧ e.reader? ≠ some i) ∧
    (∀ e ∈ l₃, e.writer? = none) ∧
    ∀ e ∈ l₄, e.writer? ≠ some i

@[simp] theorem not_sees_nil : ¬ Sees i ([] : List (Event ι V)) := by
  rintro ⟨_, _, _, _, l₁, _, _, _, _, -, -, h, -⟩
  cases l₁ <;> cases h

/-- Only a write of the client changes what it sees. -/
theorem sees_cons {e : Event ι V} (he : e.writer? ≠ some i) : Sees i (e :: h) ↔ Sees i h := by
  constructor
  · rintro ⟨j, u, v, w, l₁, l₂, l₃, l₄, l₅, hj, huv, heq, h₁, h'⟩
    cases l₁ with
    | nil =>
      cases heq
      exact absurd rfl he
    | cons _ l₁ =>
      cases heq
      exact ⟨j, u, v, w, l₁, l₂, l₃, l₄, l₅, hj, huv, rfl, (List.forall_mem_cons.mp h₁).2, h'⟩
  · rintro ⟨j, u, v, w, l₁, l₂, l₃, l₄, l₅, hj, huv, rfl, h₁, h'⟩
    exact ⟨j, u, v, w, e :: l₁, l₂, l₃, l₄, l₅, hj, huv, rfl, List.forall_mem_cons.mpr ⟨he, h₁⟩, h'⟩

end sees

/-! ## The view of a client -/

variable [DecidableEq ι]

/-- The last write of the client. -/
def own (i : ι) : List (Event ι V) → Option V
  | [] => none
  | .write j v :: h => if j = i then some v else own i h
  | _ :: h => own i h

@[simp] theorem own_read : own i (.read j :: h) = own i h := rfl
@[simp] theorem own_write : own i (.write j v :: h) = if j = i then some v else own i h := rfl

theorem own_append (hl : ∀ e ∈ l, e.writer? ≠ some i) : own i (l ++ h) = own i h := by
  induction l with
  | nil => rfl
  | cons e l ih =>
    obtain ⟨he, htail⟩ := List.forall_mem_cons.mp hl
    cases e with
    | read | lost => exact ih htail
    | write j v =>
      have hj : j ≠ i := fun h => he (congrArg some h)
      rw [List.cons_append, own_write, if_neg hj, ih htail]

theorem own_eq_some (ho : own i h = some u) :
    ∃ l h', h = l ++ .write i u :: h' ∧ ∀ e ∈ l, e.writer? ≠ some i := by
  induction h with
  | nil => cases ho
  | cons e h ih =>
    cases e with
    | read | lost =>
      obtain ⟨l, h', rfl, hl⟩ := ih ho
      exact ⟨_ :: l, h', rfl, List.forall_mem_cons.mpr ⟨(Option.some_ne_none _).symm, hl⟩⟩
    | write j v =>
      rw [own_write] at ho
      split at ho
      · next hj =>
        cases ho
        exact ⟨[], h, by rw [hj, List.nil_append], List.forall_mem_nil _⟩
      · next hj =>
        obtain ⟨l, h', rfl, hl⟩ := ih ho
        exact ⟨_ :: l, h', rfl, List.forall_mem_cons.mpr ⟨fun h => hj (Option.some.inj h), hl⟩⟩

/-- A client that has written leaves the register written. -/
theorem cell_ne_none (ho : own i h = some u) : cell h ≠ none := by
  obtain ⟨l, h', rfl, -⟩ := own_eq_some ho
  clear ho
  induction l with
  | nil => simp
  | cons e l ih =>
    cases e with
    | read | lost => exact ih
    | write => simp

/-- The write that the client has found in the register since its last write. -/
def found (i : ι) : List (Event ι V) → Option (ι × V)
  | [] => none
  | .read j :: h => if j = i then cell h else found i h
  | .lost j :: h => if j = i then none else found i h
  | .write j _ :: h => if j = i then none else found i h

@[simp] theorem found_read : found i (.read j :: h) = if j = i then cell h else found i h := rfl
@[simp] theorem found_lost : found i (.lost j :: h) = if j = i then none else found i h := rfl
@[simp] theorem found_write : found i (.write j v :: h) = if j = i then none else found i h := rfl

theorem found_append (hl : ∀ e ∈ l, e.writer? ≠ some i ∧ e.reader? ≠ some i) :
    found i (l ++ h) = found i h := by
  induction l with
  | nil => rfl
  | cons e l ih =>
    obtain ⟨⟨hw, hr⟩, htail⟩ := List.forall_mem_cons.mp hl
    cases e with
    | read j | lost j =>
      have hj : j ≠ i := fun h => hr (congrArg some h)
      simp only [List.cons_append, found_read, found_lost, if_neg hj, ih htail]
    | write j v =>
      have hj : j ≠ i := fun h => hw (congrArg some h)
      simp only [List.cons_append, found_write, if_neg hj, ih htail]

theorem found_eq_some (hf : found i h = some (j, v)) :
    ∃ l h', h = l ++ .read i :: h' ∧ cell h' = some (j, v) ∧
      ∀ e ∈ l, e.writer? ≠ some i ∧ e.reader? ≠ some i := by
  induction h with
  | nil => cases hf
  | cons e h ih =>
    -- an event of another client
    have hother : found i h = some (j, v) → (e.writer? ≠ some i ∧ e.reader? ≠ some i) →
        ∃ l h', e :: h = l ++ .read i :: h' ∧ cell h' = some (j, v) ∧
          ∀ e ∈ l, e.writer? ≠ some i ∧ e.reader? ≠ some i := by
      intro hf he
      obtain ⟨l, h', rfl, hc, hl⟩ := ih hf
      exact ⟨e :: l, h', rfl, hc, List.forall_mem_cons.mpr ⟨he, hl⟩⟩
    cases e with
    | read k =>
      rw [found_read] at hf
      split at hf
      · next hk => exact ⟨[], h, by rw [hk, List.nil_append], hf, List.forall_mem_nil _⟩
      · next hk => exact hother hf ⟨(Option.some_ne_none _).symm, fun h => hk (Option.some.inj h)⟩
    | lost k =>
      rw [found_lost] at hf
      split at hf
      · cases hf
      · next hk => exact hother hf ⟨(Option.some_ne_none _).symm, fun h => hk (Option.some.inj h)⟩
    | write k =>
      rw [found_write] at hf
      split at hf
      · cases hf
      · next hk => exact hother hf ⟨fun h => hk (Option.some.inj h), (Option.some_ne_none _).symm⟩

variable [LT V]

/-- What the client has read is a larger write of another one than its own. -/
def Overtaken (i : ι) (h : List (Event ι V)) : Prop :=
  ∃ j u v, j ≠ i ∧ u < v ∧ own i h = some u ∧ found i h = some (j, v)

theorem overtaken_cons {e : Event ι V} (he : e.writer? ≠ some i ∧ e.reader? ≠ some i) :
    Overtaken i (e :: h) ↔ Overtaken i h := by
  have hl : ∀ e' ∈ [e], e'.writer? ≠ some i ∧ e'.reader? ≠ some i := by simpa using he
  rw [Overtaken, Overtaken, ← List.singleton_append, found_append hl,
    own_append fun e he => (hl e he).1]

theorem overtaken_read : Overtaken i (.read i :: h) ↔
    ∃ j u v, j ≠ i ∧ u < v ∧ own i h = some u ∧ cell h = some (j, v) := by
  simp only [Overtaken, own_read, found_read, if_true]

theorem not_overtaken_lost : ¬ Overtaken i (.lost i :: h) := by
  rintro ⟨j, u, v, -, -, -, hf⟩
  rw [found_lost, if_pos rfl] at hf
  cases hf

/-- What the client has read settles what it sees. -/
theorem sees_write : Sees i (.write i w :: h) ↔ Overtaken i h := by
  constructor
  · rintro ⟨j, u, v, w', l₁, l₂, l₃, l₄, l₅, hj, huv, heq, h₁, h₂, h₃, h₄⟩
    cases l₁ with
    | cons e l₁ =>
      cases heq
      exact absurd rfl (h₁ _ List.mem_cons_self)
    | nil =>
      cases heq
      refine ⟨j, u, v, hj, huv, ?_, ?_⟩
      · rw [own_append fun e he => (h₂ e he).1, own_read,
          own_append fun e he => by rw [h₃ e he]; exact (Option.some_ne_none _).symm,
          own_write, if_neg hj, own_append h₄, own_write, if_pos rfl]
      · rw [found_append h₂, found_read, if_pos rfl, cell_append h₃, cell_write]
  · rintro ⟨j, u, v, hj, huv, ho, hf⟩
    obtain ⟨l₂, h', rfl, hc, h₂⟩ := found_eq_some hf
    obtain ⟨l₃, h', rfl, h₃⟩ := cell_eq_some hc
    rw [own_append fun e he => (h₂ e he).1, own_read,
      own_append fun e he => by rw [h₃ e he]; exact (Option.some_ne_none _).symm, own_write,
      if_neg hj] at ho
    obtain ⟨l₄, l₅, rfl, h₄⟩ := own_eq_some ho
    exact ⟨j, u, v, w, [], l₂, l₃, l₄, l₅, hj, huv, rfl, List.forall_mem_nil _, h₂, h₃, h₄⟩

end Register
