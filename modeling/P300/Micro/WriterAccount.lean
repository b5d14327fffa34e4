import P300.Lib.Lane
import P300.Micro.Writer
import Mathlib.Algebra.Order.Group.Multiset
import Mathlib.Data.List.Induction
import Mathlib.Data.List.Perm.Basic

/-!
# Every row of the writer is accounted for

Handlers put rows while a flush is in flight, the queue overflows, transactions commit, find the
database locked or fail. Every row that was ever put is in exactly one place, the counters say how
many are where, and the rows of a table reach the database in the order in which they were put.
-/

namespace P300

variable {ρ : Type}

/-- The rows in the order in which `executemany` hands them to the transaction. -/
def statements (byTable : Dict Table (List ρ)) : List (Table × ρ) :=
  byTable.entries.flatMap fun e => e.2.map fun row => (e.1, row)

section group

variable {t : Table}

theorem filter_flatMap_of_not_mem {entries : List (Table × List ρ)}
    (h : t ∉ entries.map Prod.fst) :
    (entries.flatMap fun e => e.2.map fun row => (e.1, row)).filter (fun x => x.1 = t) = [] := by
  rw [List.filter_eq_nil_iff]
  intro x hx
  obtain ⟨e, he, hx⟩ := List.mem_flatMap.mp hx
  obtain ⟨row, -, rfl⟩ := List.mem_map.mp hx
  rw [decide_eq_true_eq]
  exact fun hc => h (hc ▸ List.mem_map_of_mem he)

theorem filter_flatMap {entries : List (Table × List ρ)} (h : (entries.map Prod.fst).Nodup) :
    (entries.flatMap fun e => e.2.map fun row => (e.1, row)).filter (fun x => x.1 = t) =
      ((entries.lookup t).getD []).map fun row => (t, row) := by
  induction entries with
  | nil => rfl
  | cons e entries ih =>
    obtain ⟨hne, hnd⟩ := List.nodup_cons.mp h
    rw [List.flatMap_cons, List.filter_append, List.lookup_cons]
    by_cases ht : t = e.1
    · rw [ht, filter_flatMap_of_not_mem hne, List.append_nil, beq_self_eq_true]
      exact List.filter_eq_self.mpr fun x hx => by
        obtain ⟨row, -, rfl⟩ := List.mem_map.mp hx
        exact decide_eq_true rfl
    · rw [ih hnd, beq_false_of_ne ht]
      have hnil : (e.2.map fun row => (e.1, row)).filter (fun x => x.1 = t) = [] :=
        List.filter_eq_nil_iff.mpr fun x hx => by
          obtain ⟨row, -, rfl⟩ := List.mem_map.mp hx
          rw [decide_eq_true_eq]
          exact Ne.symm ht
      rw [hnil, List.nil_append]

theorem get?_group (batch : List (Table × ρ)) (t : Table) :
    ((group batch).get? t).getD [] = (batch.filter fun x => x.1 = t).map Prod.snd := by
  induction batch using List.reverseRecOn with
  | nil => rfl
  | append_singleton batch x ih =>
    rw [group, List.foldl_append, ← group, List.foldl_cons, List.foldl_nil, Dict.get?_set,
      List.filter_append, List.map_append, ← ih]
    by_cases ht : t = x.1
    · rw [if_pos ht, Option.getD_some, ht]
      simp
    · rw [if_neg ht]
      simp [Ne.symm ht]

/-- The transaction gets the rows of a table in batch order. -/
theorem filter_statements_group (batch : List (Table × ρ)) (t : Table) :
    (statements (group batch)).filter (fun x => x.1 = t) = batch.filter fun x => x.1 = t := by
  have hget := get?_group batch t
  rw [Dict.get?] at hget
  rw [statements, filter_flatMap (group batch).nodup, hget, List.map_map]
  refine (List.map_congr_left fun x hx => ?_).trans (List.map_id _)
  have ht : x.1 = t := of_decide_eq_true (List.mem_filter.mp hx).2
  rw [Function.comp_apply, ← ht, id]

/-- The transaction gets every row of the batch once. -/
theorem statements_group_perm (batch : List (Table × ρ)) :
    (statements (group batch)).Perm batch := by
  classical
  refine List.perm_iff_count.mpr fun x => ?_
  have hcount : ∀ l : List (Table × ρ), (l.filter fun y => y.1 = x.1).count x = l.count x :=
    fun l => List.count_filter (decide_eq_true rfl)
  rw [← hcount, filter_statements_group, hcount]

theorem lost_of_failed (batch : List (Table × ρ)) :
    ((group batch).entries.map fun e => e.2.length).sum = batch.length := by
  rw [← (statements_group_perm batch).length_eq, statements, List.length_flatMap]
  simp

end group

/-! ## Evictions -/

/-- The rows of a list, in no order. -/
abbrev bag (rows : List (Table × ρ)) : Multiset (Table × ρ) := rows

theorem bag_append (xs ys : List (Table × ρ)) : bag (xs ++ ys) = bag xs + bag ys :=
  (Multiset.coe_add xs ys).symm

theorem bag_cons (x : Table × ρ) (xs : List (Table × ρ)) : bag (x :: xs) = bag xs + bag [x] :=
  (bag_append [x] xs).trans (add_comm ..)

/-- `w'` is `w` without the rows `xs`, which were dropped from the heads of its deques. -/
structure Writer.Evicts (w w' : Writer ρ) (xs : List (Table × ρ)) : Prop where
  depth : w'.depth.Sublist w.depth
  other : w'.other.Sublist w.other
  rows : bag w.queued = bag w'.queued + bag xs
  same : w' = { w with depth := w'.depth, other := w'.other, dropped := w.dropped + xs.length }

namespace Writer

variable {w w' w'' : Writer ρ} {xs ys : List (Table × ρ)} {x : Table × ρ}

theorem Evicts.refl (w : Writer ρ) : w.Evicts w [] :=
  ⟨.refl _, .refl _, by simp, rfl⟩

theorem Evicts.trans (h : w.Evicts w' xs) (h' : w'.Evicts w'' ys) : w.Evicts w'' (xs ++ ys) where
  depth := h'.depth.trans h.depth
  other := h'.other.trans h.other
  rows := by
    rw [h.rows, h'.rows, bag_append]
    ac_rfl
  same := by
    rw [h'.same, h.same]
    simp only [List.length_append, Nat.add_assoc]

theorem Evicts.maxQueue (h : w.Evicts w' xs) : w'.maxQueue = w.maxQueue := by
  rw [h.same]

theorem len_eq_zero : w.len = 0 ↔ w.depth = [] ∧ w.other = [] := by
  rw [len, Nat.add_eq_zero_iff, List.length_eq_zero_iff, List.length_eq_zero_iff]

/-- A queue with a row in it drops one. -/
theorem dropOne_spec (h : 0 < w.len) :
    ∃ w' x, w.dropOne = some (w', x) ∧ w.Evicts w' [x] ∧ w'.len + 1 = w.len := by
  cases hd : w.depth with
  | cons x depth =>
    refine ⟨{ w with depth := depth, dropped := w.dropped + 1 }, x, ?_, ⟨?_, .refl _, ?_, rfl⟩, ?_⟩
    · rw [dropOne, hd]
    · rw [hd]
      exact List.sublist_cons_self x depth
    · rw [queued, queued, hd, bag_append, bag_append, bag_cons]
      exact (add_assoc ..).symm
    · simp only [len, hd, List.length_cons]
      omega
  | nil =>
    cases ho : w.other with
    | nil => exact absurd (len_eq_zero.mpr ⟨hd, ho⟩) h.ne'
    | cons x other =>
      refine ⟨{ w with other := other, dropped := w.dropped + 1 }, x, ?_,
        ⟨.refl _, ?_, ?_, rfl⟩, ?_⟩
      · rw [dropOne, hd, ho]
      · rw [ho]
        exact List.sublist_cons_self x other
      · rw [queued, queued, ho, bag_append, bag_append, bag_cons]
        exact add_right_comm ..
      · simp only [len, ho, List.length_cons]
        omega

/-- Enough fuel trims the queue to `max_queue`. -/
theorem trim_spec {fuel : Nat} (h : w.len ≤ fuel) :
    ∃ w' xs, trim fuel w = some (w', xs) ∧ w.Evicts w' xs ∧ w'.len ≤ w.maxQueue := by
  induction fuel generalizing w with
  | zero => exact ⟨w, [], rfl, .refl w, h.trans (Nat.zero_le _)⟩
  | succ fuel ih =>
    rw [trim]
    split
    · next hlen =>
      obtain ⟨w₁, x, hdrop, he, hl⟩ := dropOne_spec (Nat.zero_lt_of_lt hlen)
      obtain ⟨w', xs, htrim, he', hmax⟩ := ih (w := w₁) (by omega)
      refine ⟨w', x :: xs, ?_, he.trans he', he.maxQueue ▸ hmax⟩
      rw [hdrop]
      simp only [Option.bind_eq_bind, Option.bind_some, htrim]
      rfl
    · next hlen => exact ⟨w, [], rfl, .refl w, Nat.not_lt.mp hlen⟩

/-- A queue that holds no more than `max_queue` rows makes room for one. -/
theorem put_spec (h1 : 1 ≤ w.maxQueue) (hb : w.len ≤ w.maxQueue) (hr : w.refuses x.1 = false) :
    ∃ w' xs, w.put x = some (w'.append x, xs) ∧ w.Evicts w' xs ∧ w'.len < w.maxQueue := by
  rw [put, if_neg (Bool.not_eq_true _ ▸ hr)]
  split
  · next hlen =>
    obtain ⟨w', y, hdrop, he, hl⟩ := dropOne_spec (h1.trans hlen)
    refine ⟨w', [y], ?_, he, by omega⟩
    rw [hdrop]
    rfl
  · next hlen => exact ⟨w, [], rfl, .refl w, Nat.not_le.mp hlen⟩

end Writer

namespace Writer

variable (w : Writer ρ) (x : Table × ρ) (result : WriteResult) (now : Int)

theorem len_append : (w.append x).len = w.len + 1 := by
  rw [append]
  split
  · simp only [len, List.length_append, List.length_singleton]
    omega
  · simp only [len, List.length_append, List.length_singleton]
    omega

theorem maxQueue_append : (w.append x).maxQueue = w.maxQueue := by
  rw [append]
  split <;> rfl

theorem onWritten_maxQueue : (w.onWritten result now).maxQueue = w.maxQueue := by
  rw [onWritten]
  split <;> rfl

theorem onWritten_len : (w.onWritten result now).len = w.len := by
  rw [onWritten]
  split <;> rfl

end Writer

/-! ## The system -/

/-- The writer, the batch of the flush that is under way, and what has become of the rows so far.
The connection is used from one thread at a time: a flush begins when the one before has
returned. -/
structure WriterSys (ρ : Type) where
  writer : Writer ρ
  flight : Option (List (Table × ρ)) := none
  /-- passed to `put` -/
  puts : List (Table × ρ) := []
  /-- refused while `depth_paused` -/
  refused : List (Table × ρ) := []
  /-- evicted by `_drop_one` -/
  evicted : List (Table × ρ) := []
  /-- in a batch that failed -/
  lost : List (Table × ρ) := []
  /-- the batches that were committed, in this order -/
  committed : List (List (Table × ρ)) := []

inductive WriterAct (ρ : Type)
  /-- the disk guard -/
  | pause (paused : Bool)
  | put (x : Table × ρ)
  /-- `flush` or `flush_async` takes the queue -/
  | pop
  /-- the transaction of the flush ends at the wall clock `now` -/
  | answer (a : DbAnswer) (now : Int)

namespace WriterSys

def init (maxQueue : Nat) : WriterSys ρ := { writer := { maxQueue := maxQueue } }

variable (s : WriterSys ρ)

def inFlight : List (Table × ρ) := s.flight.getD []

/-- One act; `none` when it cannot happen, or raises. -/
def step : WriterAct ρ → Option (WriterSys ρ)
  | .pause paused => some { s with writer := { s.writer with depthPaused := paused } }
  | .put x => (s.writer.put x).map fun p =>
    { s with
      writer := p.1
      puts := s.puts ++ [x]
      refused := if s.writer.refuses x.1 = true then s.refused ++ [x] else s.refused
      evicted := s.evicted ++ p.2 }
  | .pop =>
    match s.flight with
    | some _ => none
    | none =>
      if s.writer.len = 0 then some s
      else some { s with writer := s.writer.popBatch.2, flight := some s.writer.popBatch.1 }
  | .answer a now =>
    match s.flight with
    | none => none
    | some batch =>
      match write (group batch) a with
      | none => (s.writer.onBusy batch).map fun p =>
        { s with writer := p.1, flight := none, evicted := s.evicted ++ p.2 }
      | some result =>
        let s' := { s with writer := s.writer.onWritten result now, flight := none }
        if result.err = "" then some { s' with committed := s.committed ++ [batch] }
        else some { s' with lost := s.lost ++ batch }

def run (s : WriterSys ρ) (acts : List (WriterAct ρ)) : Option (WriterSys ρ) := acts.foldlM step s

/-- What the committed transactions executed, in order. -/
def executed : List (Table × ρ) := s.committed.flatMap fun batch => statements (group batch)

/-- A flush is started only when none is under way, and ends only when one is. -/
def Enabled : WriterAct ρ → Prop
  | .pop => s.flight = none
  | .answer _ _ => s.flight ≠ none
  | _ => True

end WriterSys

/-- A row of the table that is dropped first. -/
def isDepth (x : Table × ρ) : Bool := x.1 = dropFirstTable

/-- Every row is in one place, the counters say how many are where, and both deques are lanes. -/
structure WriterSys.Tallied (s : WriterSys ρ) : Prop where
  rows : bag s.puts = bag s.refused + bag s.evicted + bag s.lost + bag s.committed.flatten +
    bag s.inFlight + bag s.writer.queued
  droppedDisk : s.writer.droppedDisk = s.refused.length
  dropped : s.writer.dropped = s.evicted.length
  lostRows : s.writer.lostRows = s.lost.length
  depthRows : ∀ x ∈ s.writer.depth, isDepth x = true
  otherRows : ∀ x ∈ s.writer.other, isDepth x = false
  depthLane : Lane.Ordered (s.puts.filter isDepth) (s.committed.flatten.filter isDepth)
    (s.inFlight.filter isDepth) s.writer.depth
  otherLane : Lane.Ordered (s.puts.filter fun x => !isDepth x)
    (s.committed.flatten.filter fun x => !isDepth x) (s.inFlight.filter fun x => !isDepth x)
    s.writer.other

namespace WriterSys

variable {s : WriterSys ρ} {x : Table × ρ} {batch : List (Table × ρ)}

theorem Tallied.init (maxQueue : Nat) : (init maxQueue : WriterSys ρ).Tallied where
  rows := rfl
  droppedDisk := rfl
  dropped := rfl
  lostRows := rfl
  depthRows _ h := nomatch h
  otherRows _ h := nomatch h
  depthLane := .empty
  otherLane := .empty

theorem Tallied.evict {w' : Writer ρ} {xs : List (Table × ρ)} (h : s.Tallied)
    (he : s.writer.Evicts w' xs) :
    { s with writer := w', evicted := s.evicted ++ xs : WriterSys ρ }.Tallied where
  rows := by
    rw [h.rows, he.rows, bag_append]
    simp only [inFlight]
    ac_rfl
  droppedDisk := by rw [he.same]; exact h.droppedDisk
  dropped := by rw [he.same, List.length_append, ← h.dropped]
  lostRows := by rw [he.same]; exact h.lostRows
  depthRows x hx := h.depthRows x (he.depth.subset hx)
  otherRows x hx := h.otherRows x (he.other.subset hx)
  depthLane := h.depthLane.drop he.depth
  otherLane := h.otherLane.drop he.other

theorem Tallied.refuse (h : s.Tallied) (x : Table × ρ) :
    { s with
      writer := { s.writer with droppedDisk := s.writer.droppedDisk + 1 }
      puts := s.puts ++ [x]
      refused := s.refused ++ [x] : WriterSys ρ }.Tallied where
  rows := by
    rw [bag_append, h.rows, bag_append]
    simp only [inFlight, Writer.queued]
    ac_rfl
  droppedDisk := by rw [List.length_append, ← h.droppedDisk]; rfl
  dropped := h.dropped
  lostRows := h.lostRows
  depthRows := h.depthRows
  otherRows := h.otherRows
  depthLane := by
    rw [List.filter_append]
    exact h.depthLane.refuse _
  otherLane := by
    rw [List.filter_append]
    exact h.otherLane.refuse _

theorem Tallied.append (h : s.Tallied) (x : Table × ρ) :
    { s with writer := s.writer.append x, puts := s.puts ++ [x] : WriterSys ρ }.Tallied := by
  have hrows : bag (s.puts ++ [x]) = bag s.refused + bag s.evicted + bag s.lost +
      bag s.committed.flatten + bag s.inFlight + bag (s.writer.append x).queued := by
    have hq : bag (s.writer.append x).queued = bag s.writer.queued + bag [x] := by
      rw [Writer.append]
      split
      · rw [Writer.queued, Writer.queued, ← List.append_assoc, bag_append]
      · rw [Writer.queued, Writer.queued, bag_append, bag_append, bag_append]
        exact add_right_comm ..
    rw [hq, bag_append, h.rows]
    ac_rfl
  cases hx : isDepth x with
  | true =>
    have hw : s.writer.append x = { s.writer with depth := s.writer.depth ++ [x] } :=
      if_pos (of_decide_eq_true hx)
    rw [hw] at hrows ⊢
    refine ⟨hrows, h.droppedDisk, h.dropped, h.lostRows, ?_, h.otherRows, ?_, ?_⟩
    · intro y hy
      rcases List.mem_append.mp hy with hy | hy
      · exact h.depthRows y hy
      · rw [List.mem_singleton.mp hy, hx]
    · rw [List.filter_append, List.filter_singleton, hx]
      exact h.depthLane.push x
    · rw [List.filter_append]
      exact h.otherLane.refuse _
  | false =>
    have hw : s.writer.append x = { s.writer with other := s.writer.other ++ [x] } :=
      if_neg (of_decide_eq_false hx)
    rw [hw] at hrows ⊢
    refine ⟨hrows, h.droppedDisk, h.dropped, h.lostRows, h.depthRows, ?_, ?_, ?_⟩
    · intro y hy
      rcases List.mem_append.mp hy with hy | hy
      · exact h.otherRows y hy
      · rw [List.mem_singleton.mp hy, hx]
    · rw [List.filter_append]
      exact h.depthLane.refuse _
    · rw [List.filter_append, List.filter_singleton, hx]
      exact h.otherLane.push x

/-- The batch of a flush is both deques. -/
theorem Tallied.filter_queued (h : s.Tallied) :
    s.writer.queued.filter isDepth = s.writer.depth ∧
      (s.writer.queued.filter fun x => !isDepth x) = s.writer.other := by
  constructor
  · rw [Writer.queued, List.filter_append, List.filter_eq_self.mpr h.depthRows,
      List.filter_eq_nil_iff.mpr fun x hx => by rw [h.otherRows x hx]; exact Bool.false_ne_true,
      List.nil_append]
  · rw [Writer.queued, List.filter_append,
      List.filter_eq_self.mpr fun x hx => by rw [h.otherRows x hx]; rfl,
      List.filter_eq_nil_iff.mpr fun x hx => by rw [h.depthRows x hx]; exact Bool.false_ne_true,
      List.append_nil]

theorem Tallied.pop (h : s.Tallied) (hf : s.flight = none) :
    { s with
      writer := s.writer.popBatch.2
      flight := some s.writer.popBatch.1 : WriterSys ρ }.Tallied := by
  have hd := h.depthLane
  have ho := h.otherLane
  rw [inFlight, hf] at hd ho
  refine ⟨?_, h.droppedDisk, h.dropped, h.lostRows, fun _ hx => (nomatch hx),
    fun _ hx => (nomatch hx), ?_, ?_⟩
  · rw [h.rows, inFlight, hf]
    exact add_right_comm ..
  · have := hd.take
    rwa [← h.filter_queued.1] at this
  · have := ho.take
    rwa [← h.filter_queued.2] at this

theorem Tallied.commit (h : s.Tallied) (hf : s.flight = some batch) (result : WriteResult)
    (herr : result.err = "") (now : Int) :
    { s with
      writer := s.writer.onWritten result now
      flight := none
      committed := s.committed ++ [batch] : WriterSys ρ }.Tallied := by
  have hw : s.writer.onWritten result now = { s.writer with
      inserted := result.counts.foldl Writer.addInserted s.writer.inserted
      flushes := s.writer.flushes + 1
      lastFlushOkMs := some now } := if_neg (not_not.mpr herr)
  have hd := h.depthLane
  have ho := h.otherLane
  rw [inFlight, hf, Option.getD_some] at hd ho
  have hflat : (s.committed ++ [batch]).flatten = s.committed.flatten ++ batch := by
    rw [List.flatten_append, List.flatten_singleton]
  rw [hw]
  refine ⟨?_, h.droppedDisk, h.dropped, h.lostRows, h.depthRows, h.otherRows, ?_, ?_⟩
  · rw [h.rows, inFlight, inFlight, hf, hflat, bag_append]
    simp only [Option.getD_some, Option.getD_none, Writer.queued, bag, Multiset.coe_nil, add_zero]
    ac_rfl
  · rw [hflat, List.filter_append]
    exact hd.deliver
  · rw [hflat, List.filter_append]
    exact ho.deliver

theorem Tallied.lose (h : s.Tallied) (hf : s.flight = some batch) (result : WriteResult)
    (herr : result.err ≠ "") (hlost : result.lost = batch.length) (now : Int) :
    { s with
      writer := s.writer.onWritten result now
      flight := none
      lost := s.lost ++ batch : WriterSys ρ }.Tallied := by
  have hw : s.writer.onWritten result now = { s.writer with
      inserted := result.counts.foldl Writer.addInserted s.writer.inserted
      flushes := s.writer.flushes + 1
      flushFailures := s.writer.flushFailures + 1
      lostRows := s.writer.lostRows + result.lost
      lastFlushError := result.err } := if_pos herr
  rw [hw]
  refine ⟨?_, h.droppedDisk, h.dropped, ?_, h.depthRows, h.otherRows, ?_, ?_⟩
  · rw [h.rows, inFlight, inFlight, hf, bag_append]
    simp only [Option.getD_some, Option.getD_none, Writer.queued, bag, Multiset.coe_nil, add_zero]
    ac_rfl
  · rw [List.length_append, ← h.lostRows, ← hlost]
  · exact h.depthLane.lose
  · exact h.otherLane.lose

theorem Tallied.giveBack (h : s.Tallied) (hf : s.flight = some batch) :
    { s with writer := s.writer.giveBack batch, flight := none : WriterSys ρ }.Tallied := by
  have hother : (batch.filter fun x => x.1 ≠ dropFirstTable) = batch.filter fun x => !isDepth x :=
    List.filter_congr fun x _ => decide_not
  have hw : s.writer.giveBack batch = { s.writer with
      depth := batch.filter isDepth ++ s.writer.depth
      other := (batch.filter fun x => !isDepth x) ++ s.writer.other } := by
    rw [Writer.giveBack, hother]
    rfl
  have hd := h.depthLane
  have ho := h.otherLane
  rw [inFlight, hf, Option.getD_some] at hd ho
  rw [hw]
  refine ⟨?_, h.droppedDisk, h.dropped, h.lostRows, ?_, ?_, hd.giveBack, ho.giveBack⟩
  · have hb : bag batch = bag (batch.filter isDepth) + bag (batch.filter fun x => !isDepth x) := by
      rw [← bag_append]
      exact Multiset.coe_eq_coe.mpr (List.filter_append_perm isDepth batch).symm
    rw [h.rows, inFlight, inFlight, hf]
    simp only [Option.getD_some, Option.getD_none, Writer.queued, bag_append, hb]
    rw [show bag ([] : List (Table × ρ)) = 0 from rfl, add_zero]
    ac_rfl
  · intro x hx
    rcases List.mem_append.mp hx with hx | hx
    · exact (List.mem_filter.mp hx).2
    · exact h.depthRows x hx
  · intro x hx
    rcases List.mem_append.mp hx with hx | hx
    · exact Bool.not_eq_true' _ ▸ (List.mem_filter.mp hx).2
    · exact h.otherRows x hx

/-! ## Runs -/

/-- The rows are tallied, and the queue is no longer than it may be. -/
structure Accounted (maxQueue : Nat) (s : WriterSys ρ) : Prop extends s.Tallied where
  capacity : s.writer.maxQueue = maxQueue
  bounded : s.writer.len ≤ maxQueue

section step

variable {maxQueue : Nat}

/-- `put` never raises. -/
theorem Accounted.put (h : s.Accounted maxQueue) (h1 : 1 ≤ maxQueue) (x : Table × ρ) :
    ∃ s', s.step (.put x) = some s' ∧ s'.Accounted maxQueue := by
  cases hr : s.writer.refuses x.1 with
  | true =>
    have hput : s.writer.put x =
        some ({ s.writer with droppedDisk := s.writer.droppedDisk + 1 }, []) := if_pos hr
    refine ⟨_, ?_, h.toTallied.refuse x, h.capacity, h.bounded⟩
    rw [step, hput, Option.map_some, if_pos hr, List.append_nil]
  | false =>
    obtain ⟨w', xs, hput, he, hlen⟩ :=
      Writer.put_spec (h.capacity ▸ h1) (h.capacity ▸ h.bounded) hr
    refine ⟨_, ?_, (h.toTallied.evict he).append x, ?_, ?_⟩
    · rw [step, hput, Option.map_some, if_neg (Bool.not_eq_true _ ▸ hr)]
    · rw [Writer.maxQueue_append, he.maxQueue, h.capacity]
    · rw [Writer.len_append, ← h.capacity]
      exact hlen

theorem Accounted.pop (h : s.Accounted maxQueue) (hf : s.flight = none) :
    ∃ s', s.step .pop = some s' ∧ s'.Accounted maxQueue := by
  by_cases h0 : s.writer.len = 0
  · refine ⟨s, ?_, h⟩
    rw [step, hf]
    exact if_pos h0
  · refine ⟨_, ?_, h.toTallied.pop hf, h.capacity, Nat.zero_le _⟩
    rw [step, hf]
    exact if_neg h0

/-- A busy database gives the batch back, and the queue is trimmed. -/
theorem Accounted.busy (h : s.Accounted maxQueue) (hf : s.flight = some batch) (now : Int) :
    ∃ s', s.step (.answer .busy now) = some s' ∧ s'.Accounted maxQueue := by
  obtain ⟨w', xs, htrim, he, hmax⟩ :=
    Writer.trim_spec (w := s.writer.giveBack batch) (Nat.le_refl _)
  have hbusy : s.writer.onBusy batch =
      some ({ w' with flushRetries := w'.flushRetries + 1 }, xs) := by
    rw [Writer.onBusy, Writer.requeue, htrim, Option.map_some]
  have ht := (h.toTallied.giveBack hf).evict he
  refine ⟨{ s with
      writer := { w' with flushRetries := w'.flushRetries + 1 }
      flight := none
      evicted := s.evicted ++ xs }, ?_,
    ⟨ht.rows, ht.droppedDisk, ht.dropped, ht.lostRows, ht.depthRows, ht.otherRows, ht.depthLane,
      ht.otherLane⟩, he.maxQueue.trans h.capacity, h.capacity ▸ hmax⟩
  rw [step, hf]
  simp only [write, hbusy, Option.map_some]

theorem Accounted.committed (h : s.Accounted maxQueue) (hf : s.flight = some batch)
    (changes : Table → Nat) (now : Int) :
    ∃ s', s.step (.answer (.committed changes) now) = some s' ∧ s'.Accounted maxQueue := by
  have ht := h.toTallied.commit hf ⟨(group batch).keys.map fun t => (t, changes t), 0, ""⟩ rfl now
  refine ⟨_, ?_, ht, h.capacity, h.bounded⟩
  rw [step, hf]
  rfl

theorem Accounted.failed (h : s.Accounted maxQueue) (hf : s.flight = some batch)
    (cls args : String) (now : Int) :
    ∃ s', s.step (.answer (.failed cls args) now) = some s' ∧ s'.Accounted maxQueue := by
  have herr : cls ++ "(" ++ args ++ ")" ≠ "" := by
    intro h
    have := congrArg String.length h
    simp at this
  have ht := h.toTallied.lose hf
    ⟨[], ((group batch).entries.map fun e => e.2.length).sum, cls ++ "(" ++ args ++ ")"⟩ herr
    (lost_of_failed batch) now
  refine ⟨_, ?_, ht, ?_, ?_⟩
  · rw [step, hf]
    exact if_neg herr
  · rw [Writer.onWritten_maxQueue, h.capacity]
  · rw [Writer.onWritten_len]
    exact h.bounded

/-- The step lemma: an act that can happen does not raise, and leaves every row accounted for. -/
theorem Accounted.step (h : s.Accounted maxQueue) (h1 : 1 ≤ maxQueue) {a : WriterAct ρ}
    (ha : s.Enabled a) : ∃ s', s.step a = some s' ∧ s'.Accounted maxQueue := by
  cases a with
  | pause paused =>
    have ht := h.toTallied
    exact ⟨_, rfl, ⟨ht.rows, ht.droppedDisk, ht.dropped, ht.lostRows, ht.depthRows, ht.otherRows,
      ht.depthLane, ht.otherLane⟩, h.capacity, h.bounded⟩
  | put x => exact h.put h1 x
  | pop => exact h.pop ha
  | answer a now =>
    obtain ⟨batch, hf⟩ := Option.ne_none_iff_exists'.mp ha
    cases a with
    | busy => exact h.busy hf now
    | committed changes => exact h.committed hf changes now
    | failed cls args => exact h.failed hf cls args now

theorem enabled_of_step {s' : WriterSys ρ} {a : WriterAct ρ} (h : s.step a = some s') :
    s.Enabled a := by
  cases a with
  | pause | put => trivial
  | pop =>
    rw [Enabled]
    by_contra hf
    obtain ⟨batch, hf⟩ := Option.ne_none_iff_exists'.mp hf
    rw [WriterSys.step, hf] at h
    cases h
  | answer a now =>
    intro hf
    rw [WriterSys.step, hf] at h
    cases h

/-- The run lemma. -/
theorem Accounted.run (h : s.Accounted maxQueue) (h1 : 1 ≤ maxQueue) {acts : List (WriterAct ρ)}
    {s' : WriterSys ρ} (hs : s.run acts = some s') : s'.Accounted maxQueue := by
  induction acts generalizing s with
  | nil =>
    cases hs
    exact h
  | cons a acts ih =>
    rw [WriterSys.run, List.foldlM_cons] at hs
    obtain ⟨s₁, hs₁, hs⟩ := Option.bind_eq_some_iff.mp hs
    obtain ⟨s₂, hs₂, h₂⟩ := h.step h1 (enabled_of_step hs₁)
    cases hs₁.symm.trans hs₂
    exact ih h₂ hs

end step

/-- What was committed reached the database in the order in which it was put. -/
structure InOrder (s : WriterSys ρ) : Prop where
  /-- a table at a time, statement by statement -/
  each : ∀ t, (s.executed.filter fun x => x.1 = t).Sublist (s.puts.filter fun x => x.1 = t)
  /-- all tables but the one that is dropped first, batch by batch -/
  together : (s.committed.flatten.filter fun x => !isDepth x).Sublist
    (s.puts.filter fun x => !isDepth x)
  /-- each row of a committed batch once -/
  once : s.executed.Perm s.committed.flatten

theorem filter_executed (s : WriterSys ρ) (t : Table) :
    (s.executed.filter fun x => x.1 = t) = s.committed.flatten.filter fun x => x.1 = t := by
  rw [executed, List.filter_flatMap, List.filter_flatten, List.flatMap_def]
  simp only [filter_statements_group]

theorem Tallied.inOrder (h : s.Tallied) : s.InOrder where
  each t := by
    rw [filter_executed]
    by_cases ht : t = dropFirstTable
    · rw [ht]
      exact h.depthLane.sent_sublist
    · have keep : ∀ l : List (Table × ρ),
          (l.filter fun x => !isDepth x).filter (fun x => x.1 = t) = l.filter fun x => x.1 = t := by
        intro l
        rw [List.filter_filter]
        refine List.filter_congr fun x _ => ?_
        by_cases hx : x.1 = t
        · simp [hx, isDepth, ht]
        · simp [hx]
      have hsub := h.otherLane.sent_sublist.filter fun x => x.1 = t
      rwa [keep, keep] at hsub
  together := h.otherLane.sent_sublist
  once := by
    rw [executed, ← List.flatMap_id]
    exact List.Perm.flatMap_left _ fun batch _ => statements_group_perm batch

/-- Every row that is ever put is in exactly one place, and reaches the database in put order; an
act that can happen never raises. -/
theorem rows_accounted {maxQueue : Nat} (h1 : 1 ≤ maxQueue) {acts : List (WriterAct ρ)}
    (hs : (init maxQueue : WriterSys ρ).run acts = some s) :
    s.Accounted maxQueue ∧ s.InOrder ∧ ∀ a, s.Enabled a → ∃ s', s.step a = some s' := by
  have hinit : (init maxQueue : WriterSys ρ).Accounted maxQueue :=
    ⟨.init maxQueue, rfl, Nat.zero_le _⟩
  have h := hinit.run h1 hs
  refine ⟨h, h.toTallied.inOrder, fun a ha => ?_⟩
  obtain ⟨s', hs', -⟩ := h.step h1 ha
  exact ⟨s', hs'⟩

/-- A busy database gives two rows back to a queue for two, which has got a third meanwhile. -/
def busyActs : List (WriterAct Nat) := [
  .put (.liquidations, 1), .put (.depth1s, 2), .pop, .put (.depth1s, 3), .answer .busy 10,
  .pop, .put (.liquidations, 4), .answer (.committed fun _ => 1) 20,
  .pause true, .put (.depth1s, 5), .pop, .answer (.failed "OperationalError" "'disk full'") 30]

theorem rows_accounted_busyActs : ∃ s : WriterSys Nat, (init 2).run busyActs = some s ∧
    [s.executed, s.evicted, s.refused, s.lost] =
      [[(.liquidations, 1), (.depth1s, 3)], [(.depth1s, 2)], [(.depth1s, 5)],
        [(.liquidations, 4)]] ∧
    s.Accounted 2 ∧ s.InOrder ∧ ∀ a, s.Enabled a → ∃ s', s.step a = some s' := by
  have h : ((init 2 : WriterSys Nat).run busyActs).map
      (fun s => [s.executed, s.evicted, s.refused, s.lost]) =
        some [[(.liquidations, 1), (.depth1s, 3)], [(.depth1s, 2)], [(.depth1s, 5)],
          [(.liquidations, 4)]] := by decide +kernel
  obtain ⟨s, hs, he⟩ := Option.map_eq_some_iff.mp h
  exact ⟨s, hs, he, rows_accounted (by decide) hs⟩

end WriterSys

end P300
