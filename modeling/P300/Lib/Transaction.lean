import Mathlib.Logic.Function.Basic
import Mathlib.Data.List.Nodup
import Mathlib.Data.Fintype.Basic

/-!
# Clients of a single-writer transactional store

A client is a program of SQL-like statements over one database value (`Prog`). The store has one
committed value and at most one open write transaction, whose working copy only its owner sees
(`Sys`). A write transaction starts at the first modifying statement or at an explicit
`beginImmediate`, and excludes the other writers until it ends; a `select` outside a transaction
reads the committed value. `Step` is one statement of one client, `CrashStep` also lets a client
die, and `Runs C` is a run whose steps all satisfy the condition `C`.

Each client makes at most one write transaction (`Prog.ReadPhase`). For such clients the file
gives the rules that the users of the library apply: what a step can do to the committed value
(`CrashStep.committed`), the invariant rule (`Sound.invariant`), the growth rule (`Sound.grows`) and
the rules for finished clients: what their results say of the committed value (`Sound.result`), and
that a changed value has its author among them (`Sound.author`).
-/

namespace TxnStore

/-- A client of the store: statements in sequence, and a result. -/
inductive Prog (D R : Type) : Type 1
  /-- Return `r`; the connection is closed, so an open transaction is rolled back. -/
  | ret (r : R)
  /-- A read; inside a transaction it sees the working copy. -/
  | select {α : Type} (q : D → α) (k : α → Prog D R)
  /-- Take the write lock without writing. -/
  | beginImmediate (k : Prog D R)
  /-- A modifying statement; the first one starts the transaction. -/
  | exec {α : Type} (f : D → D × α) (k : α → Prog D R)
  | commit (k : Prog D R)

namespace Prog

variable {D R : Type}

/-- The program alone on the committed value `d`, with `txn` the working copy of its open
transaction: the committed value it leaves and its result. -/
def runWith : Prog D R → Option D → D → D × R
  | .ret r, _, d => (d, r)
  | .select q k, txn, d => (k (q (txn.getD d))).runWith txn d
  | .beginImmediate k, txn, d => k.runWith (some (txn.getD d)) d
  | .exec f k, txn, d => (k (f (txn.getD d)).2).runWith (some (f (txn.getD d)).1) d
  | .commit k, txn, d => k.runWith none (txn.getD d)

/-- The program run by itself from the committed value `d`. -/
def run (p : Prog D R) (d : D) : D × R := p.runWith none d

@[simp] theorem runWith_ret (r : R) (txn : Option D) (d : D) :
    (ret r).runWith txn d = (d, r) := rfl

@[simp] theorem runWith_select {α : Type} (q : D → α) (k : α → Prog D R) (txn : Option D)
    (d : D) : (select q k).runWith txn d = (k (q (txn.getD d))).runWith txn d := rfl

@[simp] theorem runWith_beginImmediate (k : Prog D R) (txn : Option D) (d : D) :
    (beginImmediate k).runWith txn d = k.runWith (some (txn.getD d)) d := rfl

@[simp] theorem runWith_exec {α : Type} (f : D → D × α) (k : α → Prog D R) (txn : Option D)
    (d : D) : (exec f k).runWith txn d =
      (k (f (txn.getD d)).2).runWith (some (f (txn.getD d)).1) d := rfl

@[simp] theorem runWith_commit (k : Prog D R) (txn : Option D) (d : D) :
    (commit k).runWith txn d = k.runWith none (txn.getD d) := rfl

/-- The result of a program that has returned. -/
def result? : Prog D R → Option R
  | .ret r => some r
  | _ => none

theorem eq_ret_of_result? {p : Prog D R} {r : R} (h : p.result? = some r) : p = .ret r := by
  cases p <;> cases h
  rfl

/-- Inside a write transaction: nothing but reads and writes up to the commit, and only the
result after it. -/
def TxnPhase : Prog D R → Prop
  | .ret _ => True
  | .select _ k => ∀ a, (k a).TxnPhase
  | .beginImmediate _ => False
  | .exec _ k => ∀ a, (k a).TxnPhase
  | .commit k => ∃ r, k = .ret r

/-- Before a write transaction: reads up to its start. -/
def ReadPhase : Prog D R → Prop
  | .ret _ => True
  | .select _ k => ∀ a, (k a).ReadPhase
  | .beginImmediate k => k.TxnPhase
  | .exec _ k => ∀ a, (k a).TxnPhase
  | .commit _ => False

/-- `p` is what is left of `p₀` after some reads outside a transaction, each made on a value with
the property `P`. -/
def ReadsIn (P : D → Prop) : Prog D R → Prog D R → Prop
  | .select q k, p => p = .select q k ∨ ∃ d, P d ∧ (k (q d)).ReadsIn P p
  | p₀, p => p = p₀

/-- `p` is what is left of `p₀` after some reads that all return the same on `d`. -/
def ReadsAt (d : D) : Prog D R → Prog D R → Prop
  | .select q k, p => p = .select q k ∨ (k (q d)).ReadsAt d p
  | p₀, p => p = p₀

theorem ReadsAt.refl (d : D) (p : Prog D R) : p.ReadsAt d p := by
  cases p <;> simp [ReadsAt]

namespace ReadsIn

variable {P P' : D → Prop} {p₀ p : Prog D R}

theorem refl (P : D → Prop) (p : Prog D R) : p.ReadsIn P p := by
  cases p <;> simp [ReadsIn]

theorem snoc {α : Type} {q : D → α} {k : α → Prog D R} (h : p₀.ReadsIn P (.select q k)) {d : D}
    (hd : P d) : p₀.ReadsIn P (k (q d)) := by
  induction p₀ with
  | select q₀ k₀ ih =>
    rcases h with h | ⟨d', hd', h⟩
    · cases h
      exact .inr ⟨d, hd, .refl ..⟩
    · exact .inr ⟨d', hd', ih _ h⟩
  | ret | beginImmediate | exec | commit => cases h

/-- What is left of a program that starts with a read ends like what is left after that read. -/
theorem of_select {α : Type} {q : D → α} {k : α → Prog D R} (h : (select q k).ReadsIn P p) {d : D}
    (hd : P d) : ∃ d', P d' ∧ ∃ p', (k (q d')).ReadsIn P p' ∧ p'.run d = p.run d := by
  rcases h with rfl | ⟨d', hd', h⟩
  · exact ⟨d, hd, _, .refl .., rfl⟩
  · exact ⟨d', hd', p, h, rfl⟩

theorem mono (h : p₀.ReadsIn P p) (hP : ∀ d, P d → P' d) : p₀.ReadsIn P' p := by
  induction p₀ with
  | select q₀ k₀ ih =>
    rcases h with h | ⟨d, hd, h⟩
    · exact .inl h
    · exact .inr ⟨d, hP d hd, ih _ h⟩
  | ret | beginImmediate | exec | commit => exact h

theorem readPhase (h : p₀.ReadsIn P p) (hp : p₀.ReadPhase) : p.ReadPhase := by
  induction p₀ with
  | select q₀ k₀ ih =>
    rcases h with rfl | ⟨d, _, h⟩
    · exact hp
    · exact ih _ h (hp _)
  | ret | beginImmediate | exec | commit => cases h; exact hp

/-- Reads that were all made on `d`. -/
theorem readsAt {d : D} (h : p₀.ReadsIn (· = d) p) : p₀.ReadsAt d p := by
  induction p₀ with
  | select q₀ k₀ ih =>
    rcases h with rfl | ⟨d', rfl, h⟩
    · exact .inl rfl
    · exact .inr (ih _ h)
  | ret | beginImmediate | exec | commit => exact h

end ReadsIn

/-- Reads that return the same on `d` can be repeated there: the rest ends like the whole. -/
theorem ReadsAt.run_eq {d : D} {p₀ p : Prog D R} (h : p₀.ReadsAt d p) : p.run d = p₀.run d := by
  induction p₀ with
  | select q₀ k₀ ih =>
    rcases h with rfl | h
    · rfl
    · exact ih _ h
  | ret | beginImmediate | exec | commit => cases h; rfl

end Prog

/-- The store and its clients: the committed value, the open write transaction (its owner and
working copy) and what is left of each client's program. -/
structure Sys (ι D R : Type) where
  committed : D
  writer : Option (ι × D)
  proc : ι → Prog D R

namespace Sys

variable {ι D R : Type}

/-- All clients at their start. -/
def init (d : D) (orig : ι → Prog D R) : Sys ι D R := ⟨d, none, orig⟩

/-- Client `i` holds the write lock. -/
def Holds (s : Sys ι D R) (i : ι) : Prop := ∃ w, s.writer = some (i, w)

/-- Client `i` has returned `r` and its connection is closed. -/
def Done (s : Sys ι D R) (i : ι) (r : R) : Prop := s.proc i = .ret r ∧ ¬ s.Holds i

theorem Holds.unique {s : Sys ι D R} {i j : ι} (hi : s.Holds i) (hj : s.Holds j) : i = j := by
  obtain ⟨_, hi⟩ := hi
  obtain ⟨_, hj⟩ := hj
  rw [hi] at hj
  cases hj
  rfl

theorem not_holds_of_none {s : Sys ι D R} (h : s.writer = none) (i : ι) : ¬ s.Holds i := by
  rintro ⟨w, hw⟩
  simp [h] at hw

/-- Where the clients stand. A client without the write lock is still reading, on values with the
property `P`, or has returned; the owner of the open transaction will end as if it had run without
interruption on the committed value from the point where it took the lock. -/
structure Inv (P : D → Prop) (orig : ι → Prog D R) (s : Sys ι D R) : Prop where
  phase : ∀ i, ¬ s.Holds i → (∃ r, s.proc i = .ret r) ∨ (orig i).ReadsIn P (s.proc i)
  txn : ∀ i w, s.writer = some (i, w) → (s.proc i).TxnPhase ∧
    ∃ p, (orig i).ReadsIn P p ∧ (s.proc i).runWith (some w) s.committed = p.run s.committed

section

variable {P P' : D → Prop} {orig : ι → Prog D R} {s : Sys ι D R}

theorem inv_init (P : D → Prop) (d : D) (orig : ι → Prog D R) : (init d orig).Inv P orig :=
  ⟨fun _ _ => .inr (.refl ..), fun _ _ h => nomatch h⟩

theorem Inv.mono (hs : s.Inv P orig) (hP : ∀ d, P d → P' d) : s.Inv P' orig where
  phase i hi := (hs.phase i hi).imp_right (·.mono hP)
  txn i w h := by
    obtain ⟨ht, p, hp, hrun⟩ := hs.txn i w h
    exact ⟨ht, p, hp.mono hP, hrun⟩

theorem Inv.readPhase (hs : s.Inv P orig) (horig : ∀ i, (orig i).ReadPhase) {i : ι}
    (hi : ¬ s.Holds i) : (s.proc i).ReadPhase := by
  rcases hs.phase i hi with ⟨r, h⟩ | h
  · rw [h]; trivial
  · exact h.readPhase (horig i)

end

variable [DecidableEq ι]

/-- The value that client `i` reads. -/
def view (s : Sys ι D R) (i : ι) : D :=
  match s.writer with
  | some (j, w) => if j = i then w else s.committed
  | none => s.committed

/-- Client `i` moves on to `p`. -/
def goto (s : Sys ι D R) (i : ι) (p : Prog D R) : Sys ι D R :=
  { s with proc := Function.update s.proc i p }

/-- Client `i` dies with `r` as its outcome; an open transaction of its own is rolled back. -/
def kill (s : Sys ι D R) (i : ι) (r : R) : Sys ι D R :=
  { s.goto i (.ret r) with
    writer := match s.writer with
      | some (j, w) => if j = i then none else some (j, w)
      | none => none }

/-- The next statement of client `i`, or `none` when it is blocked or has finished. -/
def step (s : Sys ι D R) (i : ι) : Option (Sys ι D R) :=
  match s.proc i, s.writer with
  | .ret _, some (j, _) => if j = i then some { s with writer := none } else none
  | .ret _, none => none
  | .select q k, _ => some (s.goto i (k (q (s.view i))))
  | .beginImmediate k, none => some { s.goto i k with writer := some (i, s.committed) }
  | .beginImmediate _, some _ => none
  | .exec f k, none =>
    some { s.goto i (k (f s.committed).2) with writer := some (i, (f s.committed).1) }
  | .exec f k, some (j, w) =>
    if j = i then some { s.goto i (k (f w).2) with writer := some (i, (f w).1) } else none
  | .commit k, some (j, w) =>
    if j = i then some { committed := w, writer := none, proc := (s.goto i k).proc }
    else some (s.goto i k)
  | .commit k, none => some (s.goto i k)

/-- The statements of the listed clients, one after the other. -/
def steps (s : Sys ι D R) : List ι → Option (Sys ι D R)
  | [] => some s
  | i :: is => (s.step i).bind (·.steps is)

@[simp] theorem goto_committed (s : Sys ι D R) (i : ι) (p : Prog D R) :
    (s.goto i p).committed = s.committed := rfl

@[simp] theorem goto_writer (s : Sys ι D R) (i : ι) (p : Prog D R) :
    (s.goto i p).writer = s.writer := rfl

@[simp] theorem goto_proc_self (s : Sys ι D R) (i : ι) (p : Prog D R) :
    (s.goto i p).proc i = p := Function.update_self ..

theorem goto_proc_ne (s : Sys ι D R) {i j : ι} (p : Prog D R) (h : j ≠ i) :
    (s.goto i p).proc j = s.proc j := Function.update_of_ne h ..

theorem view_of_holds {s : Sys ι D R} {i : ι} {w : D} (h : s.writer = some (i, w)) :
    s.view i = w := by simp [view, h]

theorem view_of_not_holds {s : Sys ι D R} {i : ι} (h : ¬ s.Holds i) :
    s.view i = s.committed := by
  unfold view
  split
  · next j w hw =>
    rw [if_neg]
    rintro rfl
    exact h ⟨w, hw⟩
  · rfl

/-- One statement of client `i`. -/
inductive Step (s : Sys ι D R) (i : ι) : Sys ι D R → Prop
  | select {α : Type} {q : D → α} {k : α → Prog D R} : s.proc i = .select q k →
    Step s i (s.goto i (k (q (s.view i))))
  | begin {k : Prog D R} : s.proc i = .beginImmediate k → s.writer = none →
    Step s i { s.goto i k with writer := some (i, s.committed) }
  | execFirst {α : Type} {f : D → D × α} {k : α → Prog D R} : s.proc i = .exec f k →
    s.writer = none →
    Step s i { s.goto i (k (f s.committed).2) with writer := some (i, (f s.committed).1) }
  | execNext {α : Type} {f : D → D × α} {k : α → Prog D R} {w : D} : s.proc i = .exec f k →
    s.writer = some (i, w) →
    Step s i { s.goto i (k (f w).2) with writer := some (i, (f w).1) }
  | commit {k : Prog D R} {w : D} : s.proc i = .commit k → s.writer = some (i, w) →
    Step s i { s.goto i k with committed := w, writer := none }
  | commitIdle {k : Prog D R} : s.proc i = .commit k → ¬ s.Holds i → Step s i (s.goto i k)
  | close {r : R} {w : D} : s.proc i = .ret r → s.writer = some (i, w) →
    Step s i { s with writer := none }

theorem Step.of_step {s s' : Sys ι D R} {i : ι} (h : s.step i = some s') : Step s i s' := by
  unfold step at h
  split at h
  · next hp hw =>
    split at h
    · next e => cases h; exact .close hp (e ▸ hw)
    · cases h
  · cases h
  · next hp => cases h; exact .select hp
  · next hp hw => cases h; exact .begin hp hw
  · cases h
  · next hp hw => cases h; exact .execFirst hp hw
  · next hp hw =>
    split at h
    · next e => cases h; exact .execNext hp (e ▸ hw)
    · cases h
  · next hp hw =>
    split at h
    · next e => cases h; exact .commit hp (e ▸ hw)
    · next e =>
      cases h
      refine .commitIdle hp ?_
      rintro ⟨w, hw'⟩
      rw [hw] at hw'
      cases hw'
      exact e rfl
  · next hp hw => cases h; exact .commitIdle hp (by rintro ⟨w, hw'⟩; simp [hw] at hw')

/-- One statement of client `i`, or its death with outcome `crashed`. A client that returns after
its commit is done with the commit, and dies no more. -/
inductive CrashStep (crashed : R) (s : Sys ι D R) (i : ι) : Sys ι D R → Prop
  | step {s' : Sys ι D R} : Step s i s' → CrashStep crashed s i s'
  | crash : (∀ r, ¬ s.Done i r) → CrashStep crashed s i (s.kill i crashed)

/-- The states that a run reaches by steps of clients that all satisfy `C` when they are made. -/
inductive Runs (C : Sys ι D R → ι → Prop) (s₀ : Sys ι D R) : Sys ι D R → Prop
  | refl : Runs C s₀ s₀
  | step {s s' : Sys ι D R} {i : ι} : Runs C s₀ s → C s i → Step s i s' → Runs C s₀ s'

/-- The states that a run with crashes reaches. -/
inductive Crashes (crashed : R) (s₀ : Sys ι D R) : Sys ι D R → Prop
  | refl : Crashes crashed s₀ s₀
  | step {s s' : Sys ι D R} {i : ι} : Crashes crashed s₀ s → CrashStep crashed s i s' →
    Crashes crashed s₀ s'

/-- A run of any interleaving. -/
abbrev Reach (s₀ s : Sys ι D R) : Prop := Runs (fun _ _ => True) s₀ s

theorem Runs.mono {C C' : Sys ι D R → ι → Prop} {s₀ s : Sys ι D R} (h : Runs C s₀ s)
    (hC : ∀ s i, Runs C s₀ s → C s i → C' s i) : Runs C' s₀ s := by
  induction h with
  | refl => exact .refl
  | step h hc hs ih => exact .step ih (hC _ _ h hc) hs

theorem Runs.crashes {C : Sys ι D R → ι → Prop} {s₀ s : Sys ι D R} (h : Runs C s₀ s)
    (crashed : R) : Crashes crashed s₀ s := by
  induction h with
  | refl => exact .refl
  | step _ _ hs ih => exact .step ih (.step hs)

/-- A schedule that executes gives a run. -/
theorem Reach.of_steps {s₀ s s' : Sys ι D R} {is : List ι} (hs : Reach s₀ s)
    (h : s.steps is = some s') : Reach s₀ s' := by
  induction is generalizing s with
  | nil => cases h; exact hs
  | cons i is ih =>
    obtain ⟨t, ht, h⟩ := Option.bind_eq_some_iff.mp h
    exact ih (.step hs trivial (.of_step ht)) h

end Sys

/-! ## What one transaction does -/

namespace Sys

variable {ι D R : Type} [DecidableEq ι] {P : D → Prop} {orig : ι → Prog D R} {crashed : R}
  {s s' : Sys ι D R}

/-- Taking the lock for the program `p'` that is left after the statement. -/
theorem Inv.lock (hs : s.Inv P orig) (hw : s.writer = none) {i : ι} {p' : Prog D R} {w : D}
    (hp : (orig i).ReadsIn P (s.proc i)) (ht : p'.TxnPhase)
    (hrun : p'.runWith (some w) s.committed = (s.proc i).run s.committed) :
    ({ s.goto i p' with writer := some (i, w) } : Sys ι D R).Inv P orig where
  phase j hj := by
    have hji : j ≠ i := by rintro rfl; exact hj ⟨w, rfl⟩
    rw [show ({ s.goto i p' with writer := some (i, w) } : Sys ι D R).proc j = s.proc j from
      goto_proc_ne s p' hji]
    exact hs.phase j (not_holds_of_none hw j)
  txn j w' h := by
    cases h
    simp only [goto_proc_self]
    exact ⟨ht, _, hp, hrun⟩

/-- A statement of the owner inside its transaction. -/
theorem Inv.advance (hs : s.Inv P orig) {i : ι} {w w' : D} (hw : s.writer = some (i, w))
    {p' : Prog D R} (ht : p'.TxnPhase)
    (hrun : p'.runWith (some w') s.committed = (s.proc i).runWith (some w) s.committed) :
    ({ s.goto i p' with writer := some (i, w') } : Sys ι D R).Inv P orig where
  phase j hj := by
    have hji : j ≠ i := by rintro rfl; exact hj ⟨w', rfl⟩
    rw [show ({ s.goto i p' with writer := some (i, w') } : Sys ι D R).proc j = s.proc j from
      goto_proc_ne s p' hji]
    refine hs.phase j fun ⟨_, h⟩ => ?_
    rw [hw] at h
    cases h
    exact hji rfl
  txn j w₁ h := by
    cases h
    obtain ⟨_, p, hp, h⟩ := hs.txn i w hw
    simp only [goto_proc_self]
    exact ⟨ht, p, hp, hrun.trans h⟩

/-- The owner's transaction ends with `i` at `ret r`, whatever the committed value is then. -/
theorem Inv.release (hs : s.Inv P orig) {i : ι} {w : D} (hw : s.writer = some (i, w)) (d : D)
    (r : R) : ({ s.goto i (.ret r) with committed := d, writer := none } : Sys ι D R).Inv
      P orig where
  phase j _ := by
    by_cases hji : j = i
    · subst hji; exact .inl ⟨r, goto_proc_self ..⟩
    · rw [show ({ s.goto i (.ret r) with committed := d, writer := none } : Sys ι D R).proc j =
        s.proc j from goto_proc_ne s _ hji]
      refine hs.phase j fun ⟨_, h⟩ => ?_
      rw [hw] at h
      cases h
      exact hji rfl
  txn _ _ h := by cases h

/-- A client without the lock moves on while it reads, or returns. -/
theorem Inv.goto (hs : s.Inv P orig) {i : ι} (hi : ¬ s.Holds i) {p : Prog D R}
    (hp : (∃ r, p = .ret r) ∨ (orig i).ReadsIn P p) : (s.goto i p).Inv P orig where
  phase j hj := by
    by_cases hji : j = i
    · subst hji; rw [goto_proc_self]; exact hp
    · rw [goto_proc_ne s p hji]; exact hs.phase j hj
  txn j w h := by
    have hji : j ≠ i := by rintro rfl; exact hi ⟨w, h⟩
    rw [goto_proc_ne s p hji]
    exact hs.txn j w h

theorem goto_self {s : Sys ι D R} {i : ι} {p : Prog D R} (h : s.proc i = p) : s.goto i p = s := by
  unfold Sys.goto
  rw [← h, Function.update_eq_self]

theorem kill_of_holds {i : ι} {w : D} (h : s.writer = some (i, w)) (r : R) :
    s.kill i r = { s.goto i (.ret r) with writer := none } := by
  simp [kill, h]

theorem kill_of_not_holds {i : ι} (h : ¬ s.Holds i) (r : R) :
    s.kill i r = s.goto i (.ret r) := by
  unfold kill
  split
  · next j w hw =>
    rw [if_neg (by rintro rfl; exact h ⟨w, hw⟩), ← hw]
    rfl
  · next hw => rw [← hw]; rfl

/-- A statement of one client leaves the others where they are. -/
theorem Step.proc_ne {i j : ι} (h : Step s j s') (hij : i ≠ j) : s'.proc i = s.proc i := by
  cases h <;> first | rfl | exact goto_proc_ne s _ hij

theorem Step.holds_ne {i j : ι} (h : Step s j s') (hij : i ≠ j) : s'.Holds i ↔ s.Holds i := by
  have key : ∀ {o o' : Option (ι × D)}, (o = none ∨ ∃ w, o = some (j, w)) →
      (o' = none ∨ ∃ w, o' = some (j, w)) → ((∃ w, o' = some (i, w)) ↔ ∃ w, o = some (i, w)) := by
    rintro o o' (rfl | ⟨w, rfl⟩) (rfl | ⟨w', rfl⟩) <;> simp [Ne.symm hij]
  cases h with
  | select | commitIdle => exact Iff.rfl
  | begin _ h | execFirst _ h => exact key (.inl h) (.inr ⟨_, rfl⟩)
  | execNext _ h => exact key (.inr ⟨_, h⟩) (.inr ⟨_, rfl⟩)
  | commit _ h | close _ h => exact key (.inr ⟨_, h⟩) (.inl rfl)

theorem CrashStep.proc_ne {i j : ι} (h : CrashStep crashed s j s') (hij : i ≠ j) :
    s'.proc i = s.proc i := by
  cases h with
  | step h => exact h.proc_ne hij
  | crash _ => exact goto_proc_ne s _ hij

theorem CrashStep.holds_ne {i j : ι} (h : CrashStep crashed s j s') (hij : i ≠ j) :
    s'.Holds i ↔ s.Holds i := by
  cases h with
  | step h => exact h.holds_ne hij
  | crash _ =>
    by_cases hj : s.Holds j
    · have : ¬ s.Holds i := fun hi => hij (hi.unique hj)
      obtain ⟨w, hw⟩ := hj
      rw [kill_of_holds hw]
      exact iff_of_false (not_holds_of_none rfl i) this
    · rw [kill_of_not_holds hj]; exact Iff.rfl

/-- A finished client makes no step and does not die any more. -/
theorem CrashStep.done {i j : ι} {r : R} (h : CrashStep crashed s j s') (hi : s.Done i r) :
    s'.Done i r := by
  have hij : i ≠ j := by
    rintro rfl
    obtain ⟨hret, hnot⟩ := hi
    cases h with
    | crash hlive => exact hlive r ⟨hret, hnot⟩
    | step h =>
      cases h with
      | close _ hw => exact hnot ⟨_, hw⟩
      | _ hp =>
        rw [hret] at hp
        cases hp
  exact ⟨(h.proc_ne hij).trans hi.1, (h.holds_ne hij).not.mpr hi.2⟩

theorem Step.inv (horig : ∀ i, (orig i).ReadPhase) (hs : s.Inv P orig) (hc : P s.committed) {i : ι}
    (h : Step s i s') : s'.Inv P orig := by
  cases h with
  | @select _ q k hp =>
    by_cases hi : s.Holds i
    · obtain ⟨w, hw⟩ := hi
      have ht := (hs.txn i w hw).1
      rw [hp] at ht
      have := @Inv.advance _ _ _ _ _ _ _ hs i w w hw _ (ht (q w)) (by rw [hp]; rfl)
      rwa [view_of_holds hw, show s.goto i (k (q w)) = { s.goto i (k (q w)) with
        writer := some (i, w) } by rw [← hw]; rfl]
    · refine hs.goto hi (.inr ?_)
      rcases hs.phase i hi with ⟨r, h⟩ | h
      · rw [hp] at h; cases h
      · rw [hp] at h
        rw [view_of_not_holds hi]
        exact h.snoc hc
  | begin hp hw =>
    have hi := not_holds_of_none hw i
    have ht := hs.readPhase horig hi
    have hr := (hs.phase i hi).resolve_left (by rintro ⟨r, h⟩; rw [hp] at h; cases h)
    rw [hp] at ht
    exact hs.lock hw hr ht (by rw [hp]; rfl)
  | execFirst hp hw =>
    have hi := not_holds_of_none hw i
    have ht := hs.readPhase horig hi
    have hr := (hs.phase i hi).resolve_left (by rintro ⟨r, h⟩; rw [hp] at h; cases h)
    rw [hp] at ht
    exact hs.lock hw hr (ht _) (by rw [hp]; rfl)
  | execNext hp hw =>
    have ht := (hs.txn i _ hw).1
    rw [hp] at ht
    exact hs.advance hw (ht _) (by rw [hp]; rfl)
  | commit hp hw =>
    have ht := (hs.txn i _ hw).1
    rw [hp] at ht
    obtain ⟨r, rfl⟩ := ht
    exact hs.release hw _ r
  | commitIdle hp hi =>
    have ht := hs.readPhase horig hi
    rw [hp] at ht
    exact ht.elim
  | @close r w hp hw =>
    have := hs.release hw s.committed r
    rwa [goto_self hp] at this

theorem CrashStep.inv (horig : ∀ i, (orig i).ReadPhase) (hs : s.Inv P orig) (hc : P s.committed)
    {i : ι} (h : CrashStep crashed s i s') : s'.Inv P orig := by
  cases h with
  | step h => exact h.inv horig hs hc
  | crash _ =>
    by_cases hi : s.Holds i
    · obtain ⟨w, hw⟩ := hi
      rw [kill_of_holds hw]
      exact hs.release hw s.committed crashed
    · rw [kill_of_not_holds hi]
      exact hs.goto hi (.inl ⟨crashed, rfl⟩)

theorem Runs.inv {C : Sys ι D R → ι → Prop} (horig : ∀ i, (orig i).ReadPhase) {d : D}
    (h : Runs C (init d orig) s) : s.Inv (fun _ => True) orig := by
  induction h with
  | refl => exact inv_init _ d orig
  | step _ _ hs ih => exact hs.inv horig ih trivial

/-- A step keeps the committed value, or commits what its client does when it runs by itself on it
from some point of its reads on. -/
theorem Step.committed (hs : s.Inv P orig) {i : ι} (h : Step s i s') :
    s'.committed = s.committed ∨
      ∃ p r, (orig i).ReadsIn P p ∧ s'.Done i r ∧ p.run s.committed = (s'.committed, r) := by
  cases h with
  | @commit k w hp hw =>
    obtain ⟨ht, p, hr, hrun⟩ := hs.txn i w hw
    rw [hp] at ht hrun
    obtain ⟨r, rfl⟩ := ht
    exact .inr ⟨p, r, hr, ⟨goto_proc_self .., not_holds_of_none rfl i⟩, hrun.symm⟩
  | _ => exact .inl rfl

theorem CrashStep.committed (hs : s.Inv P orig) {i : ι} (h : CrashStep crashed s i s') :
    s'.committed = s.committed ∨
      ∃ p r, (orig i).ReadsIn P p ∧ s'.Done i r ∧ p.run s.committed = (s'.committed, r) := by
  cases h with
  | step h => exact h.committed hs
  | crash _ => exact .inl rfl

/-! ## Rules -/

/-- What the rules ask of the clients: each of them, run by itself on a value with the invariant `I`
after reads on earlier such values, keeps `I` and only lets the value grow along `G`. -/
structure Sound (I : D → Prop) (G : D → D → Prop) (orig : ι → Prog D R) : Prop where
  readPhase : ∀ i, (orig i).ReadPhase
  refl : ∀ d, G d d
  trans : ∀ {d d' d''}, G d d' → G d' d'' → G d d''
  keep : ∀ i p d, I d → (orig i).ReadsIn (fun d' => I d' ∧ G d' d) p →
    I (p.run d).1 ∧ G d (p.run d).1

variable {I : D → Prop} {G : D → D → Prop}

/-- One step: the invariant, the growth and where the clients stand. -/
theorem Sound.step (h : Sound I G orig) (hd : I s.committed)
    (hs : s.Inv (fun d => I d ∧ G d s.committed) orig) {i : ι} (hst : CrashStep crashed s i s') :
    I s'.committed ∧ G s.committed s'.committed ∧
      s'.Inv (fun d => I d ∧ G d s'.committed) orig := by
  have hs' := hst.inv h.readPhase hs ⟨hd, h.refl _⟩
  rcases hst.committed hs with e | ⟨p, r, hp, _, e⟩
  · rw [e]
    exact ⟨hd, h.refl _, hs'⟩
  · have := h.keep i p _ hd hp
    rw [e] at this
    exact ⟨this.1, this.2, hs'.mono fun d hd => ⟨hd.1, h.trans hd.2 this.2⟩⟩

/-- The invariant rule: the invariant holds of the committed value in every run with crashes. -/
theorem Sound.invariant (h : Sound I G orig) {d : D} (h0 : I d)
    (hr : Crashes crashed (init d orig) s) :
    I s.committed ∧ G d s.committed ∧ s.Inv (fun d => I d ∧ G d s.committed) orig := by
  induction hr with
  | refl => exact ⟨h0, h.refl d, inv_init _ d orig⟩
  | step _ hst ih =>
    obtain ⟨h1, h2, h3⟩ := h.step ih.1 ih.2.2 hst
    exact ⟨h1, h.trans ih.2.1 h2, h3⟩

/-- The growth rule: between two states of a run the committed value has grown. -/
theorem Sound.grows (h : Sound I G orig) {d : D} (h0 : I d)
    (hr : Crashes crashed (init d orig) s) {t : Sys ι D R} (ht : Crashes crashed s t) :
    G s.committed t.committed := by
  obtain ⟨h1, -, h3⟩ := h.invariant h0 hr
  have : I t.committed ∧ G s.committed t.committed ∧
      t.Inv (fun d => I d ∧ G d t.committed) orig := by
    induction ht with
    | refl => exact ⟨h1, h.refl _, h3⟩
    | step _ hst ih =>
      obtain ⟨h1, h2, h3⟩ := h.step ih.1 ih.2.2 hst
      exact ⟨h1, h.trans ih.2.1 h2, h3⟩
  exact this.2.1

/-- The rule for results: if every client that runs by itself ends with a committed value and a
result related by `Q`, and growth keeps `Q`, then so are the result of every client that has
finished in a run with crashes and the committed value of that moment. -/
theorem Sound.result (h : Sound I G orig) {Q : ι → D → R → Prop}
    (hQ : ∀ i p d, I d → (orig i).ReadsIn (fun d' => I d' ∧ G d' d) p →
      Q i (p.run d).1 (p.run d).2)
    (hkeep : ∀ i d d' r, I d' → G d d' → Q i d r → Q i d' r) (hcrash : ∀ i d, Q i d crashed)
    {d : D} (h0 : I d) (hr : Crashes crashed (init d orig) s) {i : ι} {r : R} (hi : s.Done i r) :
    Q i s.committed r := by
  induction hr generalizing i r with
  | refl =>
    have hp : orig i = .ret r := hi.1
    exact hQ i (.ret r) d h0 (by rw [hp]; exact .refl ..)
  | @step s s' j hr hst ih =>
    obtain ⟨hd, -, hinv⟩ := h.invariant h0 hr
    obtain ⟨hd', hg, -⟩ := h.step hd hinv hst
    by_cases hold : s.Done i r
    · exact hkeep i _ _ r hd' hg (ih hold)
    -- the result is new, so the step is the client's own
    have hij : i = j := by
      by_contra hij
      exact hold ⟨(hst.proc_ne hij).symm.trans hi.1, (hst.holds_ne hij).not.mp hi.2⟩
    subst hij
    obtain ⟨hr, hnot⟩ := hi
    cases hst with
    | crash _ =>
      rw [show (s.kill i crashed).proc i = .ret crashed from Function.update_self ..] at hr
      cases hr
      exact hcrash i _
    | step hst =>
      cases hst with
      | @select _ q k hp =>
        rw [goto_proc_self, view_of_not_holds (show ¬ s.Holds i from hnot)] at hr
        rcases hinv.phase i hnot with ⟨r', h⟩ | hin
        · rw [hp] at h; cases h
        · rw [hp] at hin
          have := hQ i _ _ hd (hin.snoc ⟨hd, h.refl _⟩)
          rwa [hr] at this
      | begin | execFirst | execNext => exact absurd ⟨_, rfl⟩ hnot
      | @commit k w hp hw =>
        obtain ⟨_, p, hto, hrun⟩ := hinv.txn i w hw
        rw [goto_proc_self] at hr
        subst hr
        have := hQ i p _ hd hto
        rwa [← hrun, hp] at this
      | commitIdle hp hi =>
        have := hinv.readPhase h.readPhase hi
        rw [hp] at this
        exact this.elim
      | @close r' w hp hw =>
        obtain ⟨_, p, hto, hrun⟩ := hinv.txn i w hw
        obtain rfl : r' = r := by
          rw [show ({ s with writer := none } : Sys ι D R).proc i = s.proc i from rfl, hp] at hr
          cases hr
          rfl
        have := hQ i p _ hd hto
        rwa [← hrun, hp] at this

/-- The rule for the author: if every client that runs by itself leaves the committed value as it is
or ends with a result in `W`, then a value that has changed was committed by a client that has
finished with such a result. -/
theorem Sound.author (h : Sound I G orig) {W : ι → R → Prop}
    (hW : ∀ i p d, I d → (orig i).ReadsIn (fun d' => I d' ∧ G d' d) p →
      (p.run d).1 = d ∨ W i (p.run d).2)
    {d : D} (h0 : I d) (hr : Crashes crashed (init d orig) s) :
    s.committed = d ∨ ∃ i r, s.Done i r ∧ W i r := by
  induction hr with
  | refl => exact .inl rfl
  | @step s s' j hr hst ih =>
    obtain ⟨hd, -, hinv⟩ := h.invariant h0 hr
    have hkept : s'.committed = s.committed → s'.committed = d ∨ ∃ i r, s'.Done i r ∧ W i r :=
      fun e => ih.imp e.trans fun ⟨i, r, hi, hw⟩ => ⟨i, r, hst.done hi, hw⟩
    rcases hst.committed hinv with e | ⟨p, r, hp, hdone, hrun⟩
    · exact hkept e
    · have hown := hW j p _ hd hp
      rw [hrun] at hown
      exact hown.elim hkept fun hw => .inr ⟨j, r, hdone, hw⟩

end Sys

end TxnStore
