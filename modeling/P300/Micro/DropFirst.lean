import P300.Micro.WriterAccount

/-!
# What a full queue drops

`Writer.put` and `Writer._requeue` of `data/sources/micro/store.py`: a full queue drops its oldest
depth row, and a row of another table only if no depth row is queued. A depth row that is put into a
full queue without depth rows is not queued yet when the drop is made, so another row goes for it.
-/

namespace P300

variable {ρ : Type}

namespace Writer

/-- Each deque holds the rows of its tables. -/
structure Filed (w : Writer ρ) : Prop where
  depth : ∀ x ∈ w.depth, x.1 = dropFirstTable
  other : ∀ x ∈ w.other, x.1 ≠ dropFirstTable

/-- The drops of the loop of `_requeue`, each with the writer that it is made from. -/
def trimDrops : ℕ → Writer ρ → List (Writer ρ × (Table × ρ))
  | 0, _ => []
  | fuel + 1, w =>
    if w.len > w.maxQueue then
      match w.dropOne with
      | some (w', x) => (w, x) :: trimDrops fuel w'
      | none => []
    else []

end Writer

/-- The operations that drop rows. -/
inductive QueueOp (ρ : Type)
  | put (x : Table × ρ)
  | requeue (batch : List (Table × ρ))

namespace QueueOp

/-- The drops of an operation, each with the writer that it is made from. -/
def drops (w : Writer ρ) : QueueOp ρ → List (Writer ρ × (Table × ρ))
  | .put x =>
    if w.refuses x.1 = true then []
    else if w.len ≥ w.maxQueue then w.dropOne.toList.map fun p => (w, p.2) else []
  | .requeue batch => (w.giveBack batch).trimDrops (w.giveBack batch).len

/-- The operation puts a depth row. -/
def PutsDepth : QueueOp ρ → Prop
  | .put x => x.1 = dropFirstTable
  | .requeue _ => False

/-- No row is dropped for a depth row that is queued or put, unless it is a depth row. -/
def SparesOthers (w : Writer ρ) (op : QueueOp ρ) : Prop :=
  ∀ v y, (v, y) ∈ op.drops w → y.1 ≠ dropFirstTable →
    (∀ z ∈ v.queued, z.1 ≠ dropFirstTable) ∧ ¬ op.PutsDepth

/-- A depth row that is not refused is put into a full queue, which has rows but no depth row. -/
def DepthIntoFull (w : Writer ρ) : QueueOp ρ → Prop
  | .put x => x.1 = dropFirstTable ∧ w.depthPaused = false ∧ w.len ≥ w.maxQueue ∧ w.depth = [] ∧
    w.other ≠ []
  | .requeue _ => False

end QueueOp

namespace Writer

variable {w w' : Writer ρ} {x y : Table × ρ} {xs batch : List (Table × ρ)}

/-! ## The drops are those of the operations -/

theorem trim_eq_drops {fuel : ℕ} (h : trim fuel w = some (w', xs)) :
    xs = (trimDrops fuel w).map Prod.snd := by
  induction fuel generalizing w xs with
  | zero =>
    cases h
    rfl
  | succ fuel ih =>
    rw [trim] at h
    rw [trimDrops]
    split at h
    · next hlen =>
      obtain ⟨⟨w₁, x⟩, hdrop, h⟩ := Option.bind_eq_some_iff.mp h
      obtain ⟨⟨w₂, rest⟩, htrim, h⟩ := Option.bind_eq_some_iff.mp h
      cases h
      rw [if_pos hlen, hdrop, List.map_cons, ← ih htrim]
    · next hlen =>
      cases h
      rw [if_neg hlen, List.map_nil]

/-- What `put` evicts. -/
theorem put_eq_drops (h : w.put x = some (w', xs)) :
    xs = ((QueueOp.put x).drops w).map Prod.snd := by
  rw [put] at h
  rw [QueueOp.drops]
  split at h
  · next hrefuse =>
    cases h
    rw [if_pos hrefuse, List.map_nil]
  · next hput =>
    rw [if_neg hput]
    split at h
    · next hlen =>
      obtain ⟨p, hdrop, hp⟩ := Option.map_eq_some_iff.mp h
      cases hp
      rw [if_pos hlen, hdrop]
      rfl
    · next hlen =>
      cases h
      rw [if_neg hlen, List.map_nil]

/-- What `_requeue` evicts. -/
theorem requeue_eq_drops (h : w.requeue batch = some (w', xs)) :
    xs = ((QueueOp.requeue batch).drops w).map Prod.snd :=
  trim_eq_drops h

/-! ## One drop -/

theorem dropOne_cases (h : w.dropOne = some (w', y)) :
    (∃ depth, w.depth = y :: depth ∧ w' = { w with depth := depth, dropped := w.dropped + 1 }) ∨
      w.depth = [] ∧ ∃ other, w.other = y :: other ∧
        w' = { w with other := other, dropped := w.dropped + 1 } := by
  rw [dropOne] at h
  cases hd : w.depth with
  | cons x depth =>
    rw [hd] at h
    cases h
    exact .inl ⟨depth, rfl, rfl⟩
  | nil =>
    cases ho : w.other with
    | cons x other =>
      rw [hd, ho] at h
      cases h
      exact .inr ⟨rfl, other, rfl, rfl⟩
    | nil =>
      rw [hd, ho] at h
      cases h

theorem Filed.dropOne (H : w.Filed) (h : w.dropOne = some (w', y)) : w'.Filed := by
  obtain ⟨depth, hd, rfl⟩ | ⟨_, other, ho, rfl⟩ := dropOne_cases h
  · exact ⟨fun x hx => H.depth x (hd ▸ List.mem_cons_of_mem y hx), H.other⟩
  · exact ⟨H.depth, fun x hx => H.other x (ho ▸ List.mem_cons_of_mem y hx)⟩

/-- A row of another table is dropped when no depth row is queued. -/
theorem Filed.not_depth (H : w.Filed) (h : w.dropOne = some (w', y)) (hy : y.1 ≠ dropFirstTable) :
    ∀ z ∈ w.queued, z.1 ≠ dropFirstTable := by
  obtain ⟨depth, hd, rfl⟩ | ⟨hd, other, ho, rfl⟩ := dropOne_cases h
  · exact absurd (H.depth y (hd ▸ List.mem_cons_self)) hy
  · intro z hz
    rw [queued, hd, List.append_nil] at hz
    exact H.other z hz

/-! ## The deques stay filed -/

theorem Filed.append (H : w.Filed) (x : Table × ρ) : (w.append x).Filed := by
  rw [Writer.append]
  split
  · next hx =>
    refine ⟨fun z hz => ?_, H.other⟩
    rcases List.mem_append.mp hz with hz | hz
    · exact H.depth z hz
    · rw [List.mem_singleton.mp hz]
      exact hx
  · next hx =>
    refine ⟨H.depth, fun z hz => ?_⟩
    rcases List.mem_append.mp hz with hz | hz
    · exact H.other z hz
    · rw [List.mem_singleton.mp hz]
      exact hx

theorem Filed.giveBack (H : w.Filed) (batch : List (Table × ρ)) : (w.giveBack batch).Filed where
  depth z hz := by
    rcases List.mem_append.mp hz with hz | hz
    · exact of_decide_eq_true (List.mem_filter.mp hz).2
    · exact H.depth z hz
  other z hz := by
    rcases List.mem_append.mp hz with hz | hz
    · exact of_decide_eq_true (List.mem_filter.mp hz).2
    · exact H.other z hz

theorem Filed.trim {fuel : ℕ} (H : w.Filed) (h : Writer.trim fuel w = some (w', xs)) :
    w'.Filed := by
  induction fuel generalizing w xs with
  | zero =>
    cases h
    exact H
  | succ fuel ih =>
    rw [Writer.trim] at h
    split at h
    · obtain ⟨⟨w₁, x⟩, hdrop, h⟩ := Option.bind_eq_some_iff.mp h
      obtain ⟨⟨w₂, rest⟩, htrim, h⟩ := Option.bind_eq_some_iff.mp h
      cases h
      exact ih (H.dropOne hdrop) htrim
    · cases h
      exact H

theorem Filed.put (H : w.Filed) (h : w.put x = some (w', xs)) : w'.Filed := by
  rw [Writer.put] at h
  split at h
  · cases h
    exact ⟨H.depth, H.other⟩
  · split at h
    · obtain ⟨p, hdrop, hp⟩ := Option.map_eq_some_iff.mp h
      cases hp
      exact (H.dropOne hdrop).append x
    · cases h
      exact H.append x

/-- Each drop of `_requeue` is made by `_drop_one` from a filed writer. -/
theorem Filed.mem_trimDrops {fuel : ℕ} {v : Writer ρ} (H : w.Filed)
    (h : (v, y) ∈ trimDrops fuel w) :
    v.Filed ∧ ∃ v', v.dropOne = some (v', y) := by
  induction fuel generalizing w with
  | zero => cases h
  | succ fuel ih =>
    rw [trimDrops] at h
    split at h
    · split at h
      · next w' x hdrop =>
        rcases List.mem_cons.mp h with h | h
        · cases h
          exact ⟨H, w', hdrop⟩
        · exact ih (H.dropOne hdrop) h
      · cases h
    · cases h

end Writer

theorem filed_step {s s' : WriterSys ρ} {a : WriterAct ρ} (H : s.writer.Filed)
    (h : s.step a = some s') :
    s'.writer.Filed := by
  cases a with
  | pause paused =>
    cases h
    exact ⟨H.depth, H.other⟩
  | put x =>
    obtain ⟨⟨w', xs⟩, hput, rfl⟩ := Option.map_eq_some_iff.mp h
    exact H.put hput
  | pop =>
    rw [WriterSys.step] at h
    split at h
    · cases h
    · split at h
      · cases h
        exact H
      · cases h
        exact ⟨fun _ hx => (List.not_mem_nil hx).elim, fun _ hx => (List.not_mem_nil hx).elim⟩
  | answer a now =>
    rw [WriterSys.step] at h
    split at h
    · cases h
    · next batch _ =>
      split at h
      · obtain ⟨p, hbusy, rfl⟩ := Option.map_eq_some_iff.mp h
        obtain ⟨⟨w', xs⟩, hrequeue, rfl⟩ := Option.map_eq_some_iff.mp hbusy
        have hfiled := (H.giveBack batch).trim hrequeue
        exact ⟨hfiled.depth, hfiled.other⟩
      · next result _ =>
        have hfiled : (s.writer.onWritten result now).Filed := by
          rw [Writer.onWritten]
          split <;> exact ⟨H.depth, H.other⟩
        dsimp only at h
        split at h
        · cases h
          exact hfiled
        · cases h
          exact hfiled

/-- Every run keeps the deques filed. -/
theorem filed_run {s s' : WriterSys ρ} {acts : List (WriterAct ρ)} (H : s.writer.Filed)
    (h : s.run acts = some s') : s'.writer.Filed := by
  induction acts generalizing s with
  | nil =>
    cases h
    exact H
  | cons a acts ih =>
    rw [WriterSys.run, List.foldlM_cons] at h
    obtain ⟨s₁, hs₁, h⟩ := Option.bind_eq_some_iff.mp h
    exact ih (filed_step H hs₁) h

/-! ## What goes for what -/

theorem Writer.Filed.spares_iff {w : Writer ρ} (H : w.Filed) (op : QueueOp ρ) :
    op.SparesOthers w ↔ ¬ op.DepthIntoFull w := by
  cases op with
  | put x =>
    constructor
    · rintro h ⟨hx, hpaused, hfull, hd, ho⟩
      obtain ⟨y, other, ho⟩ := List.exists_cons_of_ne_nil ho
      have hrefuse : ¬ w.refuses x.1 = true := by simp [Writer.refuses, hpaused]
      have hdrop : (w, y) ∈ (QueueOp.put x).drops w := by
        rw [QueueOp.drops, if_neg hrefuse, if_pos hfull, Writer.dropOne, hd, ho]
        exact List.mem_singleton_self _
      exact (h w y hdrop (H.other y (ho ▸ List.mem_cons_self))).2 hx
    · intro hnot v y hdrop hy
      rw [QueueOp.drops] at hdrop
      split at hdrop
      · cases hdrop
      · next hrefuse =>
        split at hdrop
        · next hfull =>
          obtain ⟨⟨w', z⟩, hz, heq⟩ := List.mem_map.mp hdrop
          cases heq
          have hz := Option.mem_toList.mp hz
          refine ⟨H.not_depth hz hy, fun hx => hnot ⟨hx, ?_, hfull, ?_, ?_⟩⟩
          · by_contra hpaused
            refine hrefuse ?_
            rw [Writer.refuses, show x.1 = dropFirstTable from hx,
              Bool.eq_true_of_not_eq_false hpaused]
            rfl
          · obtain ⟨depth, hd, _⟩ | ⟨hd, _⟩ := Writer.dropOne_cases hz
            · exact absurd (H.depth _ (hd ▸ List.mem_cons_self)) hy
            · exact hd
          · obtain ⟨depth, hd, _⟩ | ⟨_, other, ho, _⟩ := Writer.dropOne_cases hz
            · exact absurd (H.depth _ (hd ▸ List.mem_cons_self)) hy
            · exact ho ▸ List.cons_ne_nil _ _
        · cases hdrop
  | requeue batch =>
    refine iff_of_true (fun v y hdrop hy => ?_) id
    obtain ⟨hfiled, v', hv'⟩ := (H.giveBack batch).mem_trimDrops hdrop
    exact ⟨hfiled.not_depth hv' hy, id⟩

/-- In every state that a writer reaches, an operation drops a row of another table for a depth row
exactly if it puts a depth row into a full queue without one. -/
theorem sparesOthers_iff {maxQueue : ℕ} {acts : List (WriterAct ρ)} {s : WriterSys ρ}
    (hrun : (WriterSys.init maxQueue).run acts = some s) (op : QueueOp ρ) :
    op.SparesOthers s.writer ↔ ¬ op.DepthIntoFull s.writer := by
  have hinit : (WriterSys.init maxQueue : WriterSys ρ).writer.Filed :=
    ⟨fun _ hx => (List.not_mem_nil hx).elim, fun _ hx => (List.not_mem_nil hx).elim⟩
  exact (filed_run hinit hrun).spares_iff op

/-- A queue for one row that holds a liquidation. -/
def liquidationQueued : WriterSys ℕ :=
  { (WriterSys.init 1) with
    writer := (WriterSys.init 1).writer.append (.liquidations, 1), puts := [(.liquidations, 1)] }

theorem sparesOthers_iff_liquidation :
    (QueueOp.put (.depth1s, 2)).SparesOthers liquidationQueued.writer ↔
    ¬ (QueueOp.put (.depth1s, 2)).DepthIntoFull liquidationQueued.writer :=
  sparesOthers_iff (show (WriterSys.init 1).run [.put (.liquidations, 1)] =
    some liquidationQueued from rfl) _

/-- The liquidation goes for the depth row. -/
theorem not_sparesOthers_liquidation :
    (WriterSys.init 1).run [.put (.liquidations, 1)] = some liquidationQueued ∧
      ¬ (QueueOp.put (.depth1s, 2)).SparesOthers liquidationQueued.writer := by
  refine ⟨rfl, fun h => ?_⟩
  obtain ⟨-, hkept⟩ :=
    h liquidationQueued.writer (.liquidations, 1) (List.mem_singleton_self _) (by decide)
  exact hkept rfl

end P300
