import Mathlib.Algebra.BigOperators.Group.List.Basic
import Mathlib.Algebra.Order.Ring.Int
import P300.Lib.Copies

/-!
# The trials ledger

`NTrialsLedger` of `studies/lib/validation/gates.py`. An object reads the file once, when it is
opened; each `add` appends to the object's own entries and writes these over the file. The file is
the list of its entries.
-/

namespace P300

/-- An entry of the file; the time is a text. -/
structure TrialsEntry where
  family : String
  n : Int
  tag : String
  ts : String
  deriving DecidableEq

/-- The entry that `add` makes of its arguments and the time. -/
def newEntry (family : String) (n : Int) (tag ts : String) : Except String TrialsEntry :=
  if family = "" then .error "family must be a non-empty string"
  else if n < 0 then .error "n must be >= 0"
  else .ok ⟨family, n, tag, ts⟩

/-- `total` -/
def trialsTotal (entries : List TrialsEntry) (family : Option String) : Int :=
  ((entries.filter fun e => family = none ∨ some e.family = family).map (·.n)).sum

/-- The file, if there is one, and the entries of the objects in the order in which they were
opened. -/
structure TrialsState where
  file : Option (List TrialsEntry)
  objects : List (List TrialsEntry) := []

/-- What a freshly opened object has. -/
def TrialsState.fresh (s : TrialsState) : List TrialsEntry := s.file.getD []

inductive TrialsAct
  | open_
  | add (object : ℕ) (family : String) (n : Int) (tag ts : String)

/-- An object is opened, or one that was opened adds; a `ValueError` comes before any change. -/
def TrialsState.step (s : TrialsState) : TrialsAct → Option TrialsState
  | .open_ => some { s with objects := s.objects ++ [s.fresh] }
  | .add object family n tag ts =>
    s.objects[object]?.map fun entries =>
      match newEntry family n tag ts with
      | .error _ => s
      | .ok entry => ⟨some (entries ++ [entry]), s.objects.set object (entries ++ [entry])⟩

/-- The calls of the objects, in any order. -/
def TrialsState.run (s : TrialsState) (acts : List TrialsAct) : Option TrialsState :=
  acts.foldlM TrialsState.step s

/-! ## The file and the adds -/

/-- The call, unless it raises. -/
def TrialsAct.event? : TrialsAct → Option (Copies.Event TrialsEntry)
  | .open_ => some .open_
  | .add object family n tag ts => (newEntry family n tag ts).toOption.map (.append object)

/-- What happens to the file. -/
def trialsEvents (acts : List TrialsAct) : List (Copies.Event TrialsEntry) :=
  acts.filterMap TrialsAct.event?

/-- The entries of all adds, after those the file began with. -/
def everAdded (file : Option (List TrialsEntry)) (acts : List TrialsAct) : List TrialsEntry :=
  file.getD [] ++ Copies.appended (trialsEvents acts)

/-- The state as a log and its copies. -/
def TrialsState.copies (s : TrialsState) : Copies.State TrialsEntry := ⟨s.fresh, s.objects⟩

theorem TrialsState.copies_step {s s' : TrialsState} {act : TrialsAct} (h : s.step act = some s') :
    Copies.run s.copies act.event?.toList = some s'.copies := by
  cases act with
  | open_ =>
    cases h
    rfl
  | add object family n tag ts =>
    obtain ⟨entries, hentries, rfl⟩ := Option.map_eq_some_iff.mp h
    rw [TrialsAct.event?]
    cases newEntry family n tag ts with
    | error e => rfl
    | ok entry =>
      change (s.objects[object]?.map _).bind _ = _
      rw [hentries]
      rfl

theorem TrialsState.copies_run {s s' : TrialsState} {acts : List TrialsAct}
    (h : s.run acts = some s') :
    Copies.run s.copies (trialsEvents acts) = some s'.copies := by
  induction acts generalizing s with
  | nil =>
    cases h
    rfl
  | cons act acts ih =>
    rw [TrialsState.run, List.foldlM_cons] at h
    obtain ⟨s₁, hstep, h⟩ := Option.bind_eq_some_iff.mp h
    have hevents : trialsEvents (act :: acts) = act.event?.toList ++ trialsEvents acts := by
      rw [trialsEvents, List.filterMap_cons]
      cases act.event? <;> rfl
    rw [hevents, Copies.run, List.foldlM_append]
    exact Option.bind_eq_some_iff.mpr ⟨s₁.copies, TrialsState.copies_step hstep, ih h⟩

/-- The ledger is append-only: the file has all entries that were ever added, and they are what it
counts. -/
structure AppendOnly (file : Option (List TrialsEntry)) (acts : List TrialsAct)
    (s : TrialsState) : Prop where
  holds : List.Subperm (everAdded file acts) s.fresh
  total : ∀ family, trialsTotal s.fresh (some family) =
    trialsTotal (everAdded file acts) (some family)

/-- The ledger is append-only in just the runs where no object adds after another one has added
since it was opened. -/
theorem trials_append_only_iff {file : Option (List TrialsEntry)} {acts : List TrialsAct}
    {s : TrialsState} (hrun : TrialsState.run ⟨file, []⟩ acts = some s) :
    AppendOnly file acts s ↔ Copies.Current (trialsEvents acts) := by
  have hcopies := TrialsState.copies_run hrun
  refine ⟨fun h => (Copies.subperm_iff hcopies).mp h.holds, fun h => ?_⟩
  have hfresh : s.fresh = everAdded file acts := ((Copies.inv_run hcopies).synced h).log_eq
  exact ⟨(Copies.subperm_iff hcopies).mpr h, fun family => by rw [hfresh]⟩

/-- Two objects that were opened before either of them added. -/
def lostAdds : List TrialsAct := [.open_, .open_, .add 0 "chop" 12 "" "", .add 1 "chop" 30 "" ""]

theorem trials_append_only_iff_lostAdds : ∃ s, TrialsState.run ⟨none, []⟩ lostAdds = some s ∧
    (AppendOnly none lostAdds s ↔ Copies.Current (trialsEvents lostAdds)) :=
  ⟨_, rfl, trials_append_only_iff rfl⟩

/-- The file that they leave has only one of the two entries. -/
def afterLostAdds : TrialsState where
  file := some [⟨"chop", 30, "", ""⟩]
  objects := [[⟨"chop", 12, "", ""⟩], [⟨"chop", 30, "", ""⟩]]

theorem trials_lost_add : TrialsState.run ⟨none, []⟩ lostAdds = some afterLostAdds ∧
    trialsTotal (everAdded none lostAdds) (some "chop") = 42 ∧
      trialsTotal afterLostAdds.fresh (some "chop") = 30 ∧
    ¬ AppendOnly none lostAdds afterLostAdds :=
  ⟨rfl, by decide, by decide, fun h => absurd (h.total "chop") (by decide)⟩

end P300
