import P300.Lib.Transaction
import Mathlib.Data.Fintype.Basic
import Mathlib.Data.Finset.Dedup
import Mathlib.Data.Finset.Insert

/-!
# Serialisability of clients that read before they lock

A client that reads outside its write transaction acts on what it read earlier. `Fresh orig s i`
says that this does not matter for client `i` in state `s`: from here it ends as it would if it
started over now. A run in which every client is fresh at the statement that decides its outcome
(`Decides`: it takes the write lock, or returns) leaves the committed value that the clients leave
when they run one after the other, in the order in which their transactions end
(`Runs.linear`, `Runs.serializable`), and every client returns what it returns there.
-/

namespace TxnStore.Sys

variable {ι D R : Type}

/-- The committed value after the listed clients have run one after the other. -/
def serial (orig : ι → Prog D R) (order : List ι) (d : D) : D :=
  order.foldl (fun d i => ((orig i).run d).1) d

@[simp] theorem serial_nil (orig : ι → Prog D R) (d : D) : serial orig [] d = d := rfl

@[simp] theorem serial_cons (orig : ι → Prog D R) (i : ι) (order : List ι) (d : D) :
    serial orig (i :: order) d = serial orig order ((orig i).run d).1 := rfl

@[simp] theorem serial_append (orig : ι → Prog D R) (l l' : List ι) (d : D) :
    serial orig (l ++ l') d = serial orig l' (serial orig l d) := by
  simp [serial]

/-- What every client keeps when it runs by itself, all of them keep one after the other. -/
theorem serial_invariant {I : D → Prop} {orig : ι → Prog D R}
    (hI : ∀ i d, I d → I ((orig i).run d).1) {d : D} (h0 : I d) (order : List ι) :
    I (serial orig order d) := by
  induction order generalizing d with
  | nil => exact h0
  | cons i order ih => exact ih (hI i d h0)

/-- Clients that return at once change nothing. -/
theorem serial_of_ret {orig : ι → Prog D R} {rest : List ι}
    (h : ∀ i ∈ rest, ∃ r, orig i = .ret r) (d : D) :
    serial orig rest d = d := by
  induction rest with
  | nil => rfl
  | cons i rest ih =>
    obtain ⟨r, hr⟩ := h i List.mem_cons_self
    rw [serial_cons, hr]
    exact ih fun j hj => h j (List.mem_cons_of_mem _ hj)

/-- Client `i` ends as if it started over on the present committed value. -/
def Fresh (orig : ι → Prog D R) (s : Sys ι D R) (i : ι) : Prop :=
  (s.proc i).run s.committed = (orig i).run s.committed

/-- The next statement of client `i` takes the write lock, or is a read after which it returns. -/
def Decides (s : Sys ι D R) (i : ι) : Prop :=
  ¬ s.Holds i ∧
    match s.proc i with
    | .ret _ => False
    | .select q k => ∃ r, k (q s.committed) = .ret r
    | .beginImmediate _ => True
    | .exec _ _ => True
    | .commit _ => False

/-- Reads that can be repeated make a client fresh. -/
theorem Fresh.of_readsAt {orig : ι → Prog D R} {s : Sys ι D R} {i : ι}
    (h : (orig i).ReadsAt s.committed (s.proc i)) : Fresh orig s i := h.run_eq

/-- The clients of `settled` have ended, in this order; the others are still to take effect. -/
structure Linear (orig : ι → Prog D R) (d₀ : D) (s : Sys ι D R) (settled : List ι) : Prop where
  nodup : settled.Nodup
  committed : serial orig settled d₀ = s.committed
  pending : ∀ i, i ∉ settled → ¬ s.Holds i → s.proc i = orig i ∨ ∀ r, s.proc i ≠ .ret r
  done : ∀ a i b, settled = a ++ i :: b →
    s.Done i ((orig i).run (serial orig a d₀)).2
  busy : ∀ i w, s.writer = some (i, w) →
    (s.proc i).runWith (some w) s.committed = (orig i).run s.committed

namespace Linear

variable {orig : ι → Prog D R} {d₀ : D} {s s' : Sys ι D R} {settled : List ι}

theorem init (orig : ι → Prog D R) (d₀ : D) : Linear orig d₀ (init d₀ orig) [] where
  nodup := .nil
  committed := rfl
  pending _ _ _ := .inl rfl
  done a i b h := by simp at h
  busy _ _ h := nomatch h

theorem not_mem_of_holds (h : Linear orig d₀ s settled) {i : ι} (hi : s.Holds i) :
    i ∉ settled := by
  intro hm
  obtain ⟨a, b, e⟩ := List.append_of_mem hm
  exact (h.done a i b e).2 hi

theorem not_mem_of_ne_ret (h : Linear orig d₀ s settled) {i : ι} (hi : ∀ r, s.proc i ≠ .ret r) :
    i ∉ settled := by
  intro hm
  obtain ⟨a, b, e⟩ := List.append_of_mem hm
  exact hi _ (h.done a i b e).1

variable [DecidableEq ι]

/-- A step of client `i` that does not settle it. -/
theorem keep (h : Linear orig d₀ s settled) {i : ι} (hi : i ∉ settled) (hstep : Step s i s')
    (hc : s'.committed = s.committed) (hp : ¬ s'.Holds i → ∀ r, s'.proc i ≠ .ret r)
    (hb : ∀ w, s'.writer = some (i, w) →
      (s'.proc i).runWith (some w) s.committed = (orig i).run s.committed)
    (hw : ∀ j w, j ≠ i → s'.writer = some (j, w) → s.writer = some (j, w)) :
    Linear orig d₀ s' settled where
  nodup := h.nodup
  committed := h.committed.trans hc.symm
  pending j hj hnot := by
    by_cases hji : j = i
    · subst hji; exact .inr (hp hnot)
    · rw [hstep.proc_ne hji]
      exact h.pending j hj ((hstep.holds_ne hji).not.mp hnot)
  done a j b e := by
    have hji : j ≠ i := by rintro rfl; exact hi (by simp [e])
    obtain ⟨hr, hnot⟩ := h.done a j b e
    exact ⟨(hstep.proc_ne hji).trans hr, (hstep.holds_ne hji).not.mpr hnot⟩
  busy j w hj := by
    rw [hc]
    by_cases hji : j = i
    · subst hji; exact hb w hj
    · rw [hstep.proc_ne hji]
      exact h.busy j w (hw j w hji hj)

/-- A step of client `i` that ends it. -/
theorem settle (h : Linear orig d₀ s settled) {i : ι} {r : R} (hi : i ∉ settled)
    (hstep : Step s i s') (hdone : s'.Done i r)
    (hrun : (orig i).run s.committed = (s'.committed, r))
    (hbusy : ∀ j w, s'.writer = some (j, w) →
      s.writer = some (j, w) ∧ s'.committed = s.committed) :
    Linear orig d₀ s' (settled ++ [i]) where
  nodup := by
    rw [List.nodup_append]
    refine ⟨h.nodup, List.nodup_singleton i, ?_⟩
    rintro a ha b hb rfl
    rw [List.mem_singleton] at hb
    exact hi (hb ▸ ha)
  committed := by rw [serial_append, h.committed, serial_cons, serial_nil, hrun]
  pending j hj hnot := by
    have hji : j ≠ i := by rintro rfl; exact hj (by simp)
    rw [hstep.proc_ne hji]
    exact h.pending j (fun hm => hj (by simp [hm])) ((hstep.holds_ne hji).not.mp hnot)
  done a j b e := by
    rcases List.eq_nil_or_concat b with rfl | ⟨b, k, rfl⟩
    · obtain ⟨ha, hj⟩ := List.append_inj' e rfl
      cases hj
      rw [← ha, h.committed, hrun]
      exact hdone
    · rw [List.concat_eq_append, ← List.cons_append, ← List.append_assoc] at e
      obtain ⟨ha, -⟩ := List.append_inj' e rfl
      have hji : j ≠ i := by rintro rfl; exact hi (by simp [ha])
      obtain ⟨hr, hnot⟩ := h.done a j b ha
      exact ⟨(hstep.proc_ne hji).trans hr, (hstep.holds_ne hji).not.mpr hnot⟩
  busy j w hj := by
    obtain ⟨hw, hc⟩ := hbusy j w hj
    have hji : j ≠ i := by rintro rfl; exact hdone.2 ⟨w, hj⟩
    rw [hc, hstep.proc_ne hji]
    exact h.busy j w hw

/-- A step after which client `i` holds the lock. -/
theorem hold (h : Linear orig d₀ s settled) {i : ι} {w : D} (hi : i ∉ settled)
    (hstep : Step s i s') (hc : s'.committed = s.committed) (hw : s'.writer = some (i, w))
    (hb : (s'.proc i).runWith (some w) s.committed = (orig i).run s.committed) :
    Linear orig d₀ s' settled := by
  refine h.keep hi hstep hc (fun hn => absurd ⟨w, hw⟩ hn) ?_ ?_
  · intro w' hw'
    rw [hw] at hw'
    cases hw'
    exact hb
  · intro j w' hji hj
    rw [hw] at hj
    cases hj
    exact absurd rfl hji

/-- A step of client `i` that releases the lock and ends it. -/
theorem release (h : Linear orig d₀ s settled) {i : ι} {r : R} (hi : i ∉ settled)
    (hstep : Step s i s') (hret : s'.proc i = .ret r) (hw : s'.writer = none)
    (hrun : (orig i).run s.committed = (s'.committed, r)) :
    Linear orig d₀ s' (settled ++ [i]) := by
  refine h.settle hi hstep ⟨hret, not_holds_of_none hw i⟩ hrun fun j w hj => ?_
  rw [hw] at hj
  cases hj

end Linear

variable [DecidableEq ι] {orig : ι → Prog D R} {d₀ : D} {s s' : Sys ι D R}

/-- One step of a client that is fresh where it decides. -/
theorem Step.linear {settled : List ι} {i : ι} (hinv : s.Inv (fun _ => True) orig)
    (horig : ∀ i, (orig i).ReadPhase) (h : Linear orig d₀ s settled)
    (hfresh : s.Decides i → Fresh orig s i) (hs : Step s i s') :
    ∃ settled', Linear orig d₀ s' settled' := by
  cases hs with
  | @select α q k hp =>
    have hstep : Step s i (s.goto i (k (q (s.view i)))) := .select hp
    have hi := h.not_mem_of_ne_ret (i := i) (by simp [hp])
    by_cases hh : s.Holds i
    · obtain ⟨w, hw⟩ := hh
      refine ⟨settled, h.hold hi hstep rfl ((goto_writer ..).trans hw) ?_⟩
      rw [goto_proc_self, view_of_holds hw, ← h.busy i w hw, hp]
      rfl
    · rw [view_of_not_holds hh] at hstep ⊢
      by_cases hret : ∃ r, k (q s.committed) = .ret r
      · obtain ⟨r, hr⟩ := hret
        have hf := hfresh ⟨hh, by rw [hp]; exact ⟨r, hr⟩⟩
        refine ⟨_, h.settle hi hstep ⟨(goto_proc_self ..).trans hr, hh⟩ ?_ (fun j w h => ⟨h, rfl⟩)⟩
        rw [← hf, hp]
        simp [Prog.run, hr]
      · refine ⟨settled, h.keep hi hstep rfl (fun _ r hr => hret ⟨r, ?_⟩)
          (fun w hw => absurd ⟨w, hw⟩ hh) (fun j w _ h => h)⟩
        rwa [goto_proc_self] at hr
  | @begin k hp hw =>
    have hi := h.not_mem_of_ne_ret (i := i) (by simp [hp])
    have hf := hfresh ⟨not_holds_of_none hw i, by rw [hp]; trivial⟩
    refine ⟨settled, h.hold hi (.begin hp hw) rfl rfl ?_⟩
    rw [goto_proc_self, ← hf, hp]
    rfl
  | @execFirst α f k hp hw =>
    have hi := h.not_mem_of_ne_ret (i := i) (by simp [hp])
    have hf := hfresh ⟨not_holds_of_none hw i, by rw [hp]; trivial⟩
    refine ⟨settled, h.hold hi (.execFirst hp hw) rfl rfl ?_⟩
    rw [goto_proc_self, ← hf, hp]
    rfl
  | @execNext α f k w hp hw =>
    have hi := h.not_mem_of_ne_ret (i := i) (by simp [hp])
    refine ⟨settled, h.hold hi (.execNext hp hw) rfl rfl ?_⟩
    rw [goto_proc_self, ← h.busy i w hw, hp]
    rfl
  | @commit k w hp hw =>
    have hi := h.not_mem_of_holds ⟨w, hw⟩
    obtain ⟨r, rfl⟩ : ∃ r, k = .ret r := by
      have := (hinv.txn i w hw).1
      rwa [hp] at this
    refine ⟨_, h.release hi (.commit hp hw) (r := r) (goto_proc_self ..) rfl ?_⟩
    rw [← h.busy i w hw, hp]
    rfl
  | commitIdle hp hi =>
    have := hinv.readPhase horig hi
    rw [hp] at this
    exact this.elim
  | @close r w hp hw =>
    have hi := h.not_mem_of_holds ⟨w, hw⟩
    refine ⟨_, h.release hi (.close hp hw) (r := r) hp rfl ?_⟩
    rw [← h.busy i w hw, hp]
    rfl

/-- Every state of a run whose clients are fresh where they decide is linear. -/
theorem Runs.linear {C : Sys ι D R → ι → Prop} (horig : ∀ i, (orig i).ReadPhase)
    (hC : ∀ s i, Runs C (init d₀ orig) s → C s i → s.Decides i → Fresh orig s i)
    (h : Runs C (init d₀ orig) s) : ∃ settled, Linear orig d₀ s settled := by
  induction h with
  | refl => exact ⟨[], .init orig d₀⟩
  | @step s s' i h hc hs ih =>
    obtain ⟨settled, hl⟩ := ih
    exact hs.linear (h.inv horig) horig hl (hC s i h hc)

/-- When all clients of a fresh run have finished, the committed value and all results are those
of the clients run one after the other in some order. -/
theorem Runs.serializable [Fintype ι] {C : Sys ι D R → ι → Prop}
    (horig : ∀ i, (orig i).ReadPhase)
    (hC : ∀ s i, Runs C (init d₀ orig) s → C s i → s.Decides i → Fresh orig s i)
    (h : Runs C (init d₀ orig) s) (hdone : ∀ i, ∃ r, s.Done i r) :
    ∃ order : List ι, order.Nodup ∧ (∀ i, i ∈ order) ∧ serial orig order d₀ = s.committed ∧
      ∀ a i b, order = a ++ i :: b → s.Done i ((orig i).run (serial orig a d₀)).2 := by
  obtain ⟨settled, hl⟩ := h.linear horig hC
  -- the clients that never settled had returned before the first step
  have hrest : ∀ i, i ∉ settled → ∃ r, orig i = .ret r ∧ s.Done i r := by
    intro i hi
    obtain ⟨r, hr, hnot⟩ := hdone i
    rcases hl.pending i hi hnot with e | e
    · exact ⟨r, e.symm.trans hr, hr, hnot⟩
    · exact absurd hr (e r)
  let rest := Finset.univ.toList.filter fun i => i ∉ settled
  have hmem : ∀ i, i ∈ rest ↔ i ∉ settled := fun i => by simp [rest]
  have hret : ∀ i ∈ rest, ∃ r, orig i = .ret r := fun i hi =>
    (hrest i ((hmem i).mp hi)).imp fun _ h => h.1
  refine ⟨settled ++ rest, ?_, fun i => ?_, ?_, fun a i b e => ?_⟩
  · rw [List.nodup_append]
    refine ⟨hl.nodup, (Finset.nodup_toList _).filter _, ?_⟩
    rintro i hi j hj rfl
    exact (hmem i).mp hj hi
  · by_cases hi : i ∈ settled <;> simp [hi, hmem]
  · rw [serial_append, hl.committed, serial_of_ret hret]
  · rcases List.append_eq_append_iff.mp e with ⟨m, rfl, hm⟩ | ⟨m, hs, hm⟩
    · have hi : i ∈ rest := by rw [hm]; simp
      obtain ⟨r, hr, hd⟩ := hrest i ((hmem i).mp hi)
      rw [hr]
      exact hd
    · cases m with
      | nil =>
        have hi : i ∈ rest := by rw [← List.nil_append rest, ← hm]; simp
        obtain ⟨r, hr, hd⟩ := hrest i ((hmem i).mp hi)
        rw [hr]
        exact hd
      | cons j m =>
        obtain ⟨rfl, -⟩ := List.cons.inj hm
        exact hl.done a i m hs

end TxnStore.Sys
