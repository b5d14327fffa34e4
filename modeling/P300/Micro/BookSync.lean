import P300.Micro.Book
import Mathlib.Algebra.Order.Ring.Rat

/-!
# A book in sync is the exchange's book

The exchange has a book after each update id and sends a chain of depth events with absolute
quantities. Whatever part of the chain arrives, in whatever order, and whenever snapshots are taken:
while the local book is in sync, it is the exchange's book at `lastUpdateId`.
-/

namespace P300

/-! ## The exchange -/

/-- `levels` are the quantities after `final`, of all prices that changed since `prev` at least. -/
structure Absolute (book : Int → ℚ → ℚ) (prev final : Int) (levels : List (ℚ × ℚ)) : Prop where
  quantity : ∀ l ∈ levels, l.2 = book final l.1
  complete : ∀ p ∉ levels.map Prod.fst, ∀ id, prev ≤ id → id ≤ final → book id p = book final p

/-- The exchange: the quantity at each price after each update id, and the chain of its events. -/
structure Exchange where
  bids : Int → ℚ → ℚ
  asks : Int → ℚ → ℚ
  events : List DepthEvent
  chained : events.IsChain fun e e' => e'.prev = some e.final
  carries : ∀ e ∈ events, ∃ prev, e.prev = some prev ∧ prev < e.first ∧ e.first ≤ e.final ∧
    Absolute bids prev e.final e.bids ∧ Absolute asks prev e.final e.asks

/-- A price without quantity is not in the book. -/
def quote (q : ℚ) : Option ℚ := if 0 < q then some q else none

/-- The book is the exchange's book after the update `id`. -/
def Exchange.Exact (x : Exchange) (id : Int) (b : LocalBook) : Prop :=
  ∀ p, b.bids.get? p = quote (x.bids id p) ∧ b.asks.get? p = quote (x.asks id p)

/-- The texts of all prices with a quantity. -/
def FullLevels (book : ℚ → ℚ) (pairs : List (Option ℚ × Option ℚ)) : Prop :=
  ∃ levels : List (ℚ × ℚ), pairs = levels.map (fun l => (some l.1, some l.2)) ∧
    (∀ l ∈ levels, l.2 = book l.1) ∧ ∀ p, 0 < book p → p ∈ levels.map Prod.fst

/-- The full book after the update `id`. -/
structure Exchange.Full (x : Exchange) (id : Int) (snap : Snapshot) : Prop where
  lastUpdateId : snap.lastUpdateId = some id
  bids : FullLevels (x.bids id) snap.bids
  asks : FullLevels (x.asks id) snap.asks

/-- What can arrive: any event of the chain at any time, the full book of any update, a malformed
snapshot, and an order to resync. -/
def Exchange.Delivers (x : Exchange) : BookInput → Prop
  | .event ev _ => ev ∈ x.events
  | .snapshot snap _ => (∃ id, x.Full id snap) ∨
      snap.lastUpdateId = none ∨ levels_ snap.bids = none ∨ levels_ snap.asks = none
  | .markOutOfSync _ => True

/-! ## Levels -/

section levels

variable {side : Side} {book : Int → ℚ → ℚ} {f : ℚ → ℚ} {levels : List (ℚ × ℚ)} {p : ℚ}

theorem get?_applyLevel (side : Side) (level : ℚ × ℚ) (p : ℚ) :
    (applyLevel side level).get? p = if p = level.1 then quote level.2 else side.get? p := by
  rw [applyLevel]
  split
  · next h =>
    have hq : quote level.2 = none := if_neg (not_lt.mpr h)
    rw [Dict.get?_erase, hq]
  · next h =>
    have hq : quote level.2 = some level.2 := if_pos (not_le.mp h)
    rw [Dict.get?_set, hq]

/-- A price that is not in the levels keeps its quantity. -/
theorem get?_applyLevels_of_not_mem (h : p ∉ levels.map Prod.fst) :
    (applyLevels side levels).get? p = side.get? p := by
  induction levels generalizing side with
  | nil => rfl
  | cons l levels ih =>
    rw [List.map_cons, List.mem_cons, not_or] at h
    rw [applyLevels, List.foldl_cons, ← applyLevels, ih h.2, get?_applyLevel, if_neg h.1]

/-- A price that is in the levels has their quantity. -/
theorem get?_applyLevels_of_mem (hq : ∀ l ∈ levels, l.2 = f l.1) (h : p ∈ levels.map Prod.fst) :
    (applyLevels side levels).get? p = quote (f p) := by
  induction levels generalizing side with
  | nil => cases h
  | cons l levels ih =>
    rw [applyLevels, List.foldl_cons, ← applyLevels]
    by_cases hp : p ∈ levels.map Prod.fst
    · exact ih (fun l' hl' => hq l' (List.mem_cons_of_mem _ hl')) hp
    · have hpl : p = l.1 := (List.mem_cons.mp h).resolve_right hp
      rw [get?_applyLevels_of_not_mem hp, get?_applyLevel, if_pos hpl, hq l List.mem_cons_self, hpl]

/-- Absolute levels carry a price from any id that they cover to their last one. -/
theorem Absolute.get? {prev final id : Int} (h : Absolute book prev final levels)
    (h1 : prev ≤ id) (h2 : id ≤ final) (hside : side.get? p = quote (book id p)) :
    (applyLevels side levels).get? p = quote (book final p) := by
  by_cases hp : p ∈ levels.map Prod.fst
  · exact get?_applyLevels_of_mem h.quantity hp
  · rw [get?_applyLevels_of_not_mem hp, hside, h.complete p hp id h1 h2]

/-- `_levels` of numbers. -/
theorem levels_map_some (side : Side) (levels : List (ℚ × ℚ)) :
    (levels.map fun l => (some l.1, some l.2)).foldlM addLevel side =
      some (levels.foldl (fun out l => if l.2 > 0 then out.set l.1 l.2 else out) side) := by
  induction levels generalizing side with
  | nil => rfl
  | cons l levels ih =>
    rw [List.map_cons, List.foldlM_cons, List.foldl_cons, ← ih]
    simp only [addLevel, Option.bind_eq_bind, Option.bind_some]
    split <;> rfl

theorem get?_foldl_levels (hq : ∀ l ∈ levels, l.2 = f l.1) (p : ℚ) :
    (levels.foldl (fun out l => if l.2 > 0 then out.set l.1 l.2 else out) side).get? p =
      if 0 < f p ∧ p ∈ levels.map Prod.fst then some (f p) else side.get? p := by
  induction levels generalizing side with
  | nil => simp
  | cons l levels ih =>
    have hl : l.2 = f l.1 := hq l List.mem_cons_self
    rw [List.foldl_cons, ih fun l' hl' => hq l' (List.mem_cons_of_mem _ hl')]
    have hside : (if l.2 > 0 then side.set l.1 l.2 else side).get? p =
        if 0 < f p ∧ p = l.1 then some (f p) else side.get? p := by
      split
      · next h =>
        rw [Dict.get?_set]
        grind
      · grind
    rw [hside]
    grind

theorem FullLevels.get? {pairs : List (Option ℚ × Option ℚ)} (h : FullLevels f pairs) :
    ∃ side, levels_ pairs = some side ∧ ∀ p, side.get? p = quote (f p) := by
  obtain ⟨levels, rfl, hq, hall⟩ := h
  refine ⟨_, levels_map_some _ _, fun p => ?_⟩
  rw [get?_foldl_levels hq, quote]
  by_cases hp : 0 < f p
  · rw [if_pos ⟨hp, hall p hp⟩, if_pos hp]
  · rw [if_neg fun h => hp h.1, if_neg hp, Dict.get?_empty]

end levels

/-! ## The invariant -/

def Exchange.quantity (x : Exchange) : BookSide → Int → ℚ → ℚ
  | .bid => x.bids
  | .ask => x.asks

theorem Exchange.absolute (x : Exchange) {ev : DepthEvent} (hev : ev ∈ x.events) {prev : Int}
    (hprev : ev.prev = some prev) : prev < ev.first ∧ ev.first ≤ ev.final ∧
      ∀ side, Absolute (x.quantity side) prev ev.final (ev.levels side) := by
  obtain ⟨prev', hprev', hlt, hle, hb, ha⟩ := x.carries ev hev
  obtain rfl : prev = prev' := Option.some_inj.mp (hprev.symm.trans hprev')
  refine ⟨hlt, hle, fun side => ?_⟩
  cases side
  · exact hb
  · exact ha

/-- A statement about the levels of a book after an update and the farthest levels of its
snapshot. -/
abbrev BookClaim := Int → (BookSide → Side) → (BookSide → Option ℚ) → Prop

/-- Any event that spans an update leads from the claim there to the claim after the event. -/
def Exchange.Keeps (x : Exchange) (I : BookClaim) : Prop :=
  ∀ ev ∈ x.events, ∀ prev id levels far, ev.prev = some prev → prev ≤ id → id ≤ ev.final →
    I id levels far → I ev.final (fun side => applyLevels (levels side) (ev.levels side)) far

/-- A snapshot that gives the claim at its update. -/
def BookClaim.Loads (I : BookClaim) (id : Int) (snap : Snapshot) : Prop :=
  ∃ bids asks, snap.lastUpdateId = some id ∧ levels_ snap.bids = some bids ∧
    levels_ snap.asks = some asks ∧
    ∀ (b : LocalBook) now, I id (b.load id bids asks now).levels (b.load id bids asks now).snapPx

/-- What can arrive where the snapshots of an update are `ok`. -/
def Exchange.DeliversOf (x : Exchange) (ok : Int → Snapshot → Prop) : BookInput → Prop
  | .event ev _ => ev ∈ x.events
  | .snapshot snap _ => (∃ id, ok id snap) ∨
      snap.lastUpdateId = none ∨ levels_ snap.bids = none ∨ levels_ snap.asks = none
  | .markOutOfSync _ => True

/-- A book for which a claim holds as long as it is in sync. -/
structure LocalBook.Synced (x : Exchange) (I : BookClaim) (b : LocalBook) : Prop where
  flags : b.inSync = !b.needSnapshot
  held : ∀ ev ∈ b.buffer, ev ∈ x.events
  known : b.inSync = true → ∃ id, b.lastUpdateId = some id ∧ I id b.levels b.snapPx

/-- What holds of the book at all times. -/
structure LocalBook.Follows (x : Exchange) (b : LocalBook) : Prop where
  flags : b.inSync = !b.needSnapshot
  held : ∀ ev ∈ b.buffer, ev ∈ x.events
  exact_ : b.inSync = true → ∃ id, b.lastUpdateId = some id ∧ x.Exact id b

namespace LocalBook

variable {x : Exchange} {I : BookClaim} {b : LocalBook} {ev : DepthEvent} {now : Int}

theorem Synced.init : Synced x I {} := ⟨rfl, fun _ h => (nomatch h), fun h => nomatch h⟩

theorem Synced.markOutOfSync (h : b.Synced x I) (why : String) : (b.markOutOfSync why).Synced x I :=
  ⟨rfl, h.held, fun h => nomatch h⟩

theorem Synced.hold (h : b.Synced x I) (hev : ev ∈ x.events) : (b.hold ev).Synced x I := by
  have held : ∀ e ∈ b.buffer ++ [ev], e ∈ x.events := by
    intro e he
    rcases List.mem_append.mp he with he | he
    · exact h.held e he
    · rwa [List.mem_singleton.mp he]
  rw [LocalBook.hold]
  split
  · exact ⟨h.flags, fun e he => held e (List.mem_of_mem_tail he), h.known⟩
  · exact ⟨h.flags, held, h.known⟩

theorem levels_accept (b : LocalBook) (ev : DepthEvent) (now : Int) :
    (b.accept ev now).levels = fun side => applyLevels (b.levels side) (ev.levels side) := by
  funext side
  cases side <;> rfl

/-- The event spans the update at which the claim holds. -/
theorem Synced.accept (hkeeps : x.Keeps I) (h : b.Synced x I) (hev : ev ∈ x.events) {id prev : Int}
    (hid : b.lastUpdateId = some id) (hprev : ev.prev = some prev) (h1 : prev ≤ id)
    (h2 : id ≤ ev.final) : (b.accept ev now).Synced x I := by
  refine ⟨h.flags, h.held, fun hs => ⟨ev.final, rfl, ?_⟩⟩
  obtain ⟨id', hid', hI⟩ := h.known hs
  obtain rfl : id = id' := Option.some_inj.mp (hid.symm.trans hid')
  rw [levels_accept]
  exact hkeeps ev hev prev id b.levels b.snapPx hprev h1 h2 hI

theorem Synced.applyEvent (hkeeps : x.Keeps I) (h : b.Synced x I) (hev : ev ∈ x.events)
    (now : Int) :
    (b.applyEvent ev now).1.Synced x I := by
  obtain ⟨prev, hprev, hlt, hle, -⟩ := x.carries ev hev
  unfold LocalBook.applyEvent
  split
  · next last _ hid =>
    simp only
    split
    · exact h
    · next hold =>
      split
      · split
        · exact (h.markOutOfSync _).hold hev
        · next hbr =>
          -- the first event after the snapshot brackets it
          have hbr := not_not.mp hbr
          exact h.accept hkeeps hev hid hprev (by omega) hbr.2
      · split
        · exact (h.markOutOfSync _).hold hev
        · next hpu =>
          -- a later event continues the chain
          have hpu : prev = last := by simpa [hprev] using hpu
          exact h.accept hkeeps hev hid hprev hpu.le (by omega)
  · exact h.hold hev

theorem Synced.replay (hkeeps : x.Keeps I) {pending : List DepthEvent} (h : b.Synced x I)
    (hp : ∀ ev ∈ pending, ev ∈ x.events) (now : Int) : (b.replay pending now).Synced x I := by
  induction pending generalizing b with
  | nil => exact h
  | cons ev pending ih =>
    rw [LocalBook.replay, List.foldl_cons]
    exact ih (h.applyEvent hkeeps (hp ev List.mem_cons_self) now)
      fun e he => hp e (List.mem_cons_of_mem _ he)

theorem Synced.applySnapshot (hkeeps : x.Keeps I) {snap : Snapshot} {id : Int} (h : b.Synced x I)
    (hs : I.Loads id snap) (now : Int) : (b.step (.snapshot snap now)).Synced x I := by
  obtain ⟨bids, asks, hid, hbids, hasks, hI⟩ := hs
  have hload : (b.load id bids asks now).Synced x I :=
    ⟨rfl, fun _ he => (nomatch he), fun _ => ⟨id, rfl, hI b now⟩⟩
  have hstep : b.step (.snapshot snap now) = (b.load id bids asks now).replay b.buffer now := by
    rw [LocalBook.step, LocalBook.applySnapshot, hid, hbids, hasks]
    rfl
  rw [hstep]
  exact hload.replay hkeeps h.held now

/-- A malformed snapshot leaves the book as it was. -/
theorem step_malformed {snap : Snapshot} (h : snap.lastUpdateId = none ∨
    levels_ snap.bids = none ∨ levels_ snap.asks = none) (now : Int) :
    b.step (.snapshot snap now) = b := by
  have hnone : b.applySnapshot snap now = none := by
    rw [applySnapshot]
    rcases h with h | h | h
    · rw [h]
      rfl
    · rw [h]
      cases snap.lastUpdateId <;> rfl
    · rw [h]
      cases snap.lastUpdateId <;> cases levels_ snap.bids <;> rfl
  rw [LocalBook.step, hnone]
  rfl

variable {ok : Int → Snapshot → Prop}

/-- The step lemma. -/
theorem Synced.step (hkeeps : x.Keeps I) (hok : ∀ id snap, ok id snap → I.Loads id snap)
    {i : BookInput} (h : b.Synced x I) (hi : x.DeliversOf ok i) : (b.step i).Synced x I := by
  cases i with
  | event ev now => exact h.applyEvent hkeeps hi now
  | snapshot snap now =>
    rcases hi with ⟨id, hs⟩ | hs
    · exact h.applySnapshot hkeeps (hok id snap hs) now
    · rw [step_malformed hs]
      exact h
  | markOutOfSync why => exact h.markOutOfSync why

/-- The run lemma. -/
theorem Synced.run (hkeeps : x.Keeps I) (hok : ∀ id snap, ok id snap → I.Loads id snap)
    {inputs : List BookInput} (h : b.Synced x I) (hi : ∀ i ∈ inputs, x.DeliversOf ok i) :
    (b.run inputs).Synced x I := by
  induction inputs generalizing b with
  | nil => exact h
  | cons i inputs ih =>
    rw [LocalBook.run, List.foldl_cons]
    exact ih (h.step hkeeps hok (hi i List.mem_cons_self)) fun j hj =>
      hi j (List.mem_cons_of_mem _ hj)

end LocalBook

/-! ## Full snapshots -/

/-- `Exact`, of the levels alone. -/
def Exchange.exactClaim (x : Exchange) : BookClaim := fun id levels _ =>
  ∀ p, (levels .bid).get? p = quote (x.bids id p) ∧ (levels .ask).get? p = quote (x.asks id p)

theorem Exchange.exactClaim_keeps (x : Exchange) : x.Keeps x.exactClaim := by
  intro ev hev prev id levels far hprev h1 h2 hI p
  obtain ⟨_, _, habs⟩ := x.absolute hev hprev
  exact ⟨(habs .bid).get? h1 h2 (hI p).1, (habs .ask).get? h1 h2 (hI p).2⟩

/-- The full book is exact. -/
theorem Exchange.Full.loads {x : Exchange} {id : Int} {snap : Snapshot} (hs : x.Full id snap) :
    x.exactClaim.Loads id snap := by
  obtain ⟨bids, hbids, hb⟩ := hs.bids.get?
  obtain ⟨asks, hasks, ha⟩ := hs.asks.get?
  exact ⟨bids, asks, hs.lastUpdateId, hbids, hasks, fun b now p => ⟨hb p, ha p⟩⟩

theorem LocalBook.Follows.run {x : Exchange} {inputs : List BookInput}
    (hi : ∀ i ∈ inputs, x.Delivers i) :
    (LocalBook.run {} inputs).Follows x := by
  have hdelivers : ∀ i ∈ inputs, x.DeliversOf x.Full i := by
    intro i hmem
    have h := hi i hmem
    cases i <;> exact h
  obtain ⟨hflags, hheld, hknown⟩ := LocalBook.Synced.init.run x.exactClaim_keeps
    (fun _ _ hs => Exchange.Full.loads hs) hdelivers
  exact ⟨hflags, hheld, hknown⟩

/-- Order-book sync soundness, in every state that any deliveries can reach. -/
theorem inSync_exact (x : Exchange) {inputs : List BookInput} (h : ∀ i ∈ inputs, x.Delivers i) :
    ((LocalBook.run {} inputs).inSync = true ↔ (LocalBook.run {} inputs).needSnapshot = false) ∧
    ((LocalBook.run {} inputs).inSync = true → ∃ id,
      (LocalBook.run {} inputs).lastUpdateId = some id ∧ x.Exact id (LocalBook.run {} inputs)) := by
  have hb : (LocalBook.run {} inputs).Follows x := LocalBook.Follows.run h
  refine ⟨?_, hb.exact_⟩
  rw [hb.flags, Bool.not_eq_true']

/-- The event of the update `id` of an exchange whose bid at 100 has the quantity `id`. -/
def countingEvent (id : Nat) : DepthEvent where
  first := id
  final := id
  prev := some (id - 1)
  bids := [(100, id)]

/-- Three updates, each of which bids one more at 100. -/
def countingExchange : Exchange where
  bids id p := if p = 100 then id else 0
  asks _ _ := 0
  events := [countingEvent 1, countingEvent 2, countingEvent 3]
  chained := by decide
  carries := by
    have carried : ∀ id : Nat, ∃ prev, (countingEvent id).prev = some prev ∧
        prev < (countingEvent id).first ∧ (countingEvent id).first ≤ (countingEvent id).final ∧
        Absolute (fun id p => if p = 100 then (id : ℚ) else 0) prev (countingEvent id).final
          (countingEvent id).bids ∧
        Absolute (fun _ _ => 0) prev (countingEvent id).final (countingEvent id).asks := by
      intro id
      refine ⟨id - 1, rfl, sub_one_lt _, le_rfl, ⟨?_, ?_⟩,
        ⟨fun _ h => (nomatch h), fun _ _ _ _ _ => rfl⟩⟩
      · intro l hl
        rw [List.mem_singleton.mp hl]
        simp [countingEvent]
      · intro p hp _ _ _
        have hne : p ≠ 100 := by simpa [countingEvent] using hp
        simp [hne]
    intro e he
    simp only [List.mem_cons, List.not_mem_nil, or_false] at he
    rcases he with rfl | rfl | rfl
    all_goals exact carried _

/-- Update 2 is overtaken by update 3, and a malformed snapshot comes before a good one. -/
def overtaken : List BookInput := [
  .event (countingEvent 1) 10, .snapshot ⟨some 1, [(some 100, some 1)], []⟩ 20,
  .event (countingEvent 3) 30, .event (countingEvent 2) 35, .snapshot ⟨none, [], []⟩ 40,
  .snapshot ⟨some 3, [(some 100, some 3)], []⟩ 50, .event (countingEvent 1) 60]

theorem inSync_exact_overtaken : (LocalBook.run {} overtaken).lastUpdateId = some 3 ∧
    (LocalBook.run {} overtaken).resyncs = 1 ∧
    ∃ id, (LocalBook.run {} overtaken).lastUpdateId = some id ∧
      countingExchange.Exact id (LocalBook.run {} overtaken) := by
  have full : ∀ id : Nat, 0 < id →
      countingExchange.Full id ⟨some id, [(some 100, some (id : ℚ))], []⟩ := by
    intro id hid
    refine ⟨rfl, ⟨[(100, id)], rfl, ?_, ?_⟩, ⟨[], rfl, fun _ h => (nomatch h), fun _ h => ?_⟩⟩
    · intro l hl
      rw [List.mem_singleton.mp hl]
      simp [countingExchange]
    · intro p hp
      by_contra hne
      have hne' : p ≠ 100 := by simpa using hne
      simp [countingExchange, hne'] at hp
    · exact absurd h (lt_irrefl 0)
  refine ⟨by decide +kernel, by decide +kernel,
    (inSync_exact countingExchange ?_).2 (by decide +kernel)⟩
  have event : ∀ id ∈ [1, 2, 3], countingEvent id ∈ countingExchange.events := by decide
  intro i hi
  simp only [overtaken, List.mem_cons, List.not_mem_nil, or_false] at hi
  rcases hi with rfl | rfl | rfl | rfl | rfl | rfl | rfl
  · exact event 1 (by decide)
  · exact .inl ⟨1, full 1 (by decide)⟩
  · exact event 3 (by decide)
  · exact event 2 (by decide)
  · exact .inr (.inl rfl)
  · exact .inl ⟨3, full 3 (by decide)⟩
  · exact event 1 (by decide)

end P300
