import Mathlib.Algebra.Group.Nat.Defs
import Mathlib.Data.Rat.Defs

/-!
# Instants, directions and prices

What the parts of the fleet share: instants as microseconds since the epoch (UTC) with their date
and ISO text, the direction of a position, and the fill of a resolved stop.
-/

namespace P300

/-- Microseconds since the epoch. -/
abbrev Time := Int

/-- The UTC date of an instant, as a number of days since the epoch. -/
def utcDate (t : Time) : Int := t / 86_400_000_000

/-- `f"{n:0{width}d}"` of a natural number. -/
def zeroPad (width n : Nat) : List Char :=
  List.replicate (width - (Nat.toDigits 10 n).length) '0' ++ Nat.toDigits 10 n

theorem isDigit_of_mem_zeroPad {width n : Nat} {c : Char} (h : c ∈ zeroPad width n) :
    c.isDigit := by
  rcases List.mem_append.mp h with h | h
  · rw [List.eq_of_mem_replicate h]
    decide
  · exact Nat.isDigit_of_mem_toDigits (by decide) (by decide) h

/-- Reading a padded number gives it back. -/
theorem ofDigitChars_zeroPad (width n : Nat) : Nat.ofDigitChars 10 (zeroPad width n) 0 = n := by
  rw [zeroPad, Nat.ofDigitChars_append, Nat.ofDigitChars_replicate_zero, Nat.mul_zero,
    Nat.ofDigitChars_ten_toDigits]

theorem length_zeroPad {width n : Nat} (hwidth : 0 < width) (h : n < 10 ^ width) :
    (zeroPad width n).length = width := by
  have hlen : (Nat.toDigits 10 n).length ≤ width :=
    (Nat.length_toDigits_le_iff (by decide) hwidth).mpr h
  rw [zeroPad, List.length_append, List.length_replicate]
  omega

/-- Year, month and day of a date in the proleptic Gregorian calendar. -/
def civil (date : Int) : Int × Int × Int :=
  -- days since 0000-03-01, so that a leap day ends its year
  let z := date + 719_468
  let era := z / 146_097
  let doe := z - era * 146_097
  let yoe := (doe - doe / 1460 + doe / 36_524 - doe / 146_096) / 365
  let doy := doe - (365 * yoe + yoe / 4 - yoe / 100)
  let mp := (5 * doy + 2) / 153
  let month := if mp < 10 then mp + 3 else mp - 9
  (yoe + era * 400 + (if month ≤ 2 then 1 else 0), month, doy - (153 * mp + 2) / 5 + 1)

/-- `datetime.isoformat()` of an aware UTC datetime: the microseconds appear unless they are 0. -/
def isoformat (t : Time) : String :=
  let (year, month, day) := civil (utcDate t)
  let us := (t % 86_400_000_000).toNat
  let pad (width : Nat) (n : Nat) : List Char := zeroPad width n
  let frac := if us % 1_000_000 = 0 then [] else '.' :: pad 6 (us % 1_000_000)
  String.ofList <| pad 4 year.toNat ++ '-' :: pad 2 month.toNat ++ '-' :: pad 2 day.toNat ++
    'T' :: pad 2 (us / 3_600_000_000) ++ ':' :: pad 2 (us / 60_000_000 % 60) ++
    ':' :: pad 2 (us / 1_000_000 % 60) ++ frac ++ ['+', '0', '0', ':', '0', '0']

example : isoformat 1_709_164_800_000_000 = "2024-02-29T00:00:00+00:00" := by decide +kernel

/-- `trades.direction`, upper-cased by every writer. -/
inductive Direction
  | long
  | short
  | other (text : String)
  deriving DecidableEq, Repr

/-- A direction with price P&L. -/
def Direction.Perp (x : Direction) : Prop := x = .long ∨ x = .short

/-- `stop_path.StopExit` -/
structure StopExit where
  price : ℚ
  at_ : Time
  reason : String
  deriving DecidableEq, Repr

/-! ## Python exceptions -/

section Except

variable {ε α β : Type} {f : α → Except ε β}

@[simp] theorem ok_bind (a : α) : Except.ok a >>= f = f a := rfl

@[simp] theorem error_bind (e : ε) : Except.error e >>= f = Except.error e := rfl

theorem of_bind_ok {x : Except ε α} {b : β} (h : x >>= f = .ok b) :
    ∃ a, x = .ok a ∧ f a = .ok b := by
  cases x with
  | error e => cases h
  | ok a => exact ⟨a, rfl, h⟩

theorem exists_bind_ok {x : Except ε α} :
    (∃ b, x >>= f = .ok b) ↔ ∃ a, x = .ok a ∧ ∃ b, f a = .ok b := by
  cases x with
  | error e => exact ⟨fun ⟨_, h⟩ => (by cases h), fun ⟨_, h, _⟩ => (by cases h)⟩
  | ok a => exact ⟨fun ⟨b, h⟩ => ⟨a, rfl, b, h⟩, fun ⟨_, rfl, h⟩ => h⟩

/-- A comprehension returns if and only if each of its values does. -/
theorem exists_mapM_ok {l : List α} : (∃ l', l.mapM f = .ok l') ↔ ∀ a ∈ l, ∃ b, f a = .ok b := by
  induction l with
  | nil => exact ⟨fun _ a ha => absurd ha List.not_mem_nil, fun _ => ⟨[], rfl⟩⟩
  | cons a l ih =>
    rw [List.mapM_cons, exists_bind_ok, List.forall_mem_cons, ← ih]
    constructor
    · rintro ⟨b, hb, h⟩
      obtain ⟨l', hl', -⟩ := exists_bind_ok.mp h
      exact ⟨⟨b, hb⟩, l', hl'⟩
    · rintro ⟨⟨b, hb⟩, l', hl'⟩
      exact ⟨b, hb, exists_bind_ok.mpr ⟨l', hl', b :: l', rfl⟩⟩

/-- A loop whose body leaves it with an exception, or goes on. -/
theorem foldlM_exit {σ : Type} {f : σ → α → Except ε σ} {exit : α → Option ε} {next : σ → α → σ}
    (hf : ∀ s a, f s a = (exit a).elim (.ok (next s a)) .error) (l : List α) (s : σ) :
    l.foldlM f s = (l.findSome? exit).elim (.ok (l.foldl next s)) .error := by
  induction l generalizing s with
  | nil => rfl
  | cons a l ih =>
    rw [List.foldlM_cons, hf, List.findSome?_cons]
    cases exit a with
    | some e => rfl
    | none => exact ih (next s a)

/-- What the body of a loop keeps holds after the loop. -/
theorem foldlM_inv {σ : Type} {f : σ → α → Except ε σ} {P : σ → Prop} {l : List α} {s s' : σ}
    (hf : ∀ s s', ∀ a ∈ l, P s → f s a = .ok s' → P s') (hs : P s) (h : l.foldlM f s = .ok s') :
    P s' := by
  induction l generalizing s with
  | nil =>
    cases h
    exact hs
  | cons a l ih =>
    rw [List.foldlM_cons] at h
    obtain ⟨s₁, h₁, h⟩ := of_bind_ok h
    have hs₁ : P s₁ := hf s s₁ a List.mem_cons_self hs h₁
    exact ih (fun s s' a' ha' => hf s s' a' (List.mem_cons_of_mem a ha')) hs₁ h

/-- A loop returns if its body returns wherever it comes to. -/
theorem foldlM_inv_ok {σ : Type} {f : σ → α → Except ε σ} {P : σ → Prop} {l : List α} {s : σ}
    (hf : ∀ s, ∀ a ∈ l, P s → ∃ s', f s a = .ok s' ∧ P s') (hs : P s) :
    ∃ s', l.foldlM f s = .ok s' ∧ P s' := by
  induction l generalizing s with
  | nil => exact ⟨s, rfl, hs⟩
  | cons a l ih =>
    obtain ⟨s₁, h₁, hs₁⟩ := hf s a List.mem_cons_self hs
    obtain ⟨s', h', hs'⟩ := ih (fun s a' ha' => hf s a' (List.mem_cons_of_mem a ha')) hs₁
    refine ⟨s', ?_, hs'⟩
    rw [List.foldlM_cons, h₁]
    exact h'

theorem foldlM_ok {σ : Type} {f : σ → α → Except ε σ} {l : List α}
    (h : ∀ s, ∀ a ∈ l, ∃ s', f s a = .ok s') (s : σ) : ∃ s', l.foldlM f s = .ok s' := by
  have hf : ∀ s, ∀ a ∈ l, True → ∃ s', f s a = .ok s' ∧ True := by
    intro s a ha _
    obtain ⟨s', hs'⟩ := h s a ha
    exact ⟨s', hs', trivial⟩
  obtain ⟨s', hs', -⟩ := foldlM_inv_ok (s := s) hf trivial
  exact ⟨s', hs'⟩

theorem foldlM_congr {σ : Type} {f g : σ → α → Except ε σ} {l : List α}
    (h : ∀ s, ∀ a ∈ l, f s a = g s a) {s : σ} : l.foldlM f s = l.foldlM g s := by
  induction l generalizing s with
  | nil => rfl
  | cons a l ih =>
    rw [List.foldlM_cons, List.foldlM_cons, h s a List.mem_cons_self]
    congr 1
    funext s'
    exact ih fun s a' ha' => h s a' (List.mem_cons_of_mem a ha')

theorem mapM_ok {g : α → β} {l : List α} (h : ∀ a ∈ l, f a = .ok (g a)) :
    l.mapM f = .ok (l.map g) := by
  induction l with
  | nil => rfl
  | cons a l ih =>
    rw [List.mapM_cons, h a List.mem_cons_self, ih fun a' ha' => h a' (List.mem_cons_of_mem a ha')]
    rfl

end Except

end P300
