import Mathlib.Data.List.Basic

/-!
# Lanes

A lane hands items on in the order in which they were put. They wait in line, and one batch at a
time is in flight: it may be delivered, lost, or given back to the head of the line. Items may be
dropped from the head. What is delivered, in flight and waiting is then always a subsequence of what
was put, so no item is delivered twice or overtakes another.
-/

namespace Lane

variable {α : Type*} {put sent flying waiting : List α}

/-- Delivered, in flight and waiting, in this order, are a subsequence of what was put. -/
def Ordered (put sent flying waiting : List α) : Prop := (sent ++ flying ++ waiting).Sublist put

theorem Ordered.empty : Ordered ([] : List α) [] [] [] := .slnil

theorem Ordered.push (h : Ordered put sent flying waiting) (x : α) :
    Ordered (put ++ [x]) sent flying (waiting ++ [x]) := by
  rw [Ordered, ← List.append_assoc]
  exact h.append (.refl _)

theorem Ordered.refuse (h : Ordered put sent flying waiting) (xs : List α) :
    Ordered (put ++ xs) sent flying waiting :=
  h.trans (List.sublist_append_left ..)

theorem Ordered.drop {waiting' : List α} (h : Ordered put sent flying waiting)
    (hw : waiting'.Sublist waiting) : Ordered put sent flying waiting' :=
  ((List.Sublist.refl _).append hw).trans h

/-- The whole line takes off. -/
theorem Ordered.take (h : Ordered put sent [] waiting) : Ordered put sent waiting [] := by
  rwa [Ordered, List.append_nil] at h ⊢

theorem Ordered.deliver (h : Ordered put sent flying waiting) :
    Ordered put (sent ++ flying) [] waiting := by
  rwa [Ordered, List.append_nil]

theorem Ordered.lose (h : Ordered put sent flying waiting) : Ordered put sent [] waiting := by
  rw [Ordered, List.append_nil]
  exact ((List.sublist_append_left sent flying).append (.refl _)).trans h

theorem Ordered.giveBack (h : Ordered put sent flying waiting) :
    Ordered put sent [] (flying ++ waiting) := by
  rwa [Ordered, List.append_nil, ← List.append_assoc]

theorem Ordered.sent_sublist (h : Ordered put sent flying waiting) : sent.Sublist put := by
  rw [Ordered, List.append_assoc] at h
  exact (List.sublist_append_left ..).trans h

end Lane
