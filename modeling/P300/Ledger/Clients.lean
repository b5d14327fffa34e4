import P300.Lib.Transaction
import P300.Ledger.Effects

/-!
# The lifecycle calls as clients of the store

Every call makes at most one write transaction (`Call.readPhase`), and whatever earlier ledger it
has read the row of its trade from, it keeps the identity of the ledger and only adds to it
(`Call.sound`). These are the facts that the rules of the store ask of its clients.
-/

namespace P300

open TxnStore Ledger

/-- The clients' programs. -/
abbrev progs {ι : Type} (env : Env) (calls : ι → Call) (i : ι) : Prog Ledger Reply :=
  (calls i).prog env

/-! ## Phases -/

theorem recordAdjustment_txnPhase {now : Time} {e : RecordArgs} {k : Bool → Prog Ledger Reply}
    (hk : ∀ b, (k b).TxnPhase) : (recordAdjustment now e k).TxnPhase := by
  unfold recordAdjustment
  split
  · trivial
  · intro seq b
    exact hk b

theorem resize_readPhase (tid : String) (u : TradeUpdate) (now : Time) (e : RecordArgs) :
    (resize tid u now e).ReadPhase := by
  intro n
  refine recordAdjustment_txnPhase fun b => ?_
  cases b
  · trivial
  · exact ⟨_, rfl⟩

theorem flipLegs_readPhase (a : FlipArgs) (row : FlipCols) : (flipLegs a row).ReadPhase := by
  intro n
  refine recordAdjustment_txnPhase fun _ tid outcome => ?_
  cases outcome with
  | inserted => exact recordAdjustment_txnPhase fun _ => ⟨_, rfl⟩
  | idTaken | keyTaken => trivial

theorem bookClose_txnPhase {a : PersistArgs} {row : CloseCols}
    {k : Option CloseCols → Prog Ledger Reply} (hk : ∀ o, (k o).TxnPhase) :
    (bookClose a row k).TxnPhase := by
  intro n
  dsimp only
  split
  · exact hk none
  · exact recordAdjustment_txnPhase fun _ => hk (some row)

theorem persistClose_readPhase {a : PersistArgs} {k : Option CloseCols → Prog Ledger Reply}
    (hk : ∀ o, (k o).TxnPhase) (hnone : (k none).ReadPhase) : (persistClose a k).ReadPhase := by
  intro o
  cases o with
  | none => exact hnone
  | some row =>
    have h : (bookClose a row k).TxnPhase := bookClose_txnPhase hk
    exact h

theorem persistCloseAlone_readPhase (a : PersistArgs) : (persistCloseAlone a).ReadPhase := by
  refine persistClose_readPhase (fun o => ?_) trivial
  cases o
  · trivial
  · exact ⟨_, rfl⟩

theorem openPaperTrade_readPhase (a : OpenArgs) : (openPaperTrade a).ReadPhase := by
  unfold openPaperTrade
  split
  · trivial
  · intro existing
    cases existing with
    | some tid => trivial
    | none =>
      intro tid outcome
      cases outcome with
      | inserted => exact recordAdjustment_txnPhase fun _ => ⟨_, rfl⟩
      | idTaken => trivial
      | keyTaken => intro winner; cases winner <;> trivial

theorem closePerpTrade_readPhase (env : Env) (a : PerpCloseArgs) :
    (closePerpTrade env a).ReadPhase := by
  intro row
  cases row with
  | none => trivial
  | some row =>
    intro times
    dsimp only
    split
    · trivial
    · next p c hp =>
      intro o
      cases o with
      | none => exact ⟨_, rfl⟩
      | some cols => exact bookClose_txnPhase fun _ => ⟨_, rfl⟩

/-- A client that reads a row first, and answers at once if there is none. -/
theorem selectRow_readPhase {α : Type} {q : Ledger → Option α} {k : Option α → Prog Ledger Reply}
    (hnone : (k none).ReadPhase) (hsome : ∀ row, (k (some row)).ReadPhase) :
    (Prog.select q k).ReadPhase := by
  intro o
  cases o with
  | none => exact hnone
  | some row => exact hsome row

theorem Call.readPhase (env : Env) (c : Call) : (c.prog env).ReadPhase := by
  cases c with
  | openTrade a => exact openPaperTrade_readPhase a
  | scale a =>
    refine selectRow_readPhase trivial fun row => ?_
    dsimp only
    split
    · trivial
    · exact resize_readPhase _ _ _ _
  | leverage a =>
    refine selectRow_readPhase trivial fun row => ?_
    dsimp only
    split
    · trivial
    · exact resize_readPhase _ _ _ _
  | flip a =>
    show (applyFlip a).ReadPhase
    unfold applyFlip
    split
    · trivial
    · refine selectRow_readPhase trivial fun row => ?_
      dsimp only
      split
      · trivial
      · exact flipLegs_readPhase a row
  | closePerp a => exact closePerpTrade_readPhase env a
  | closeCarry a =>
    refine selectRow_readPhase trivial fun row => ?_
    dsimp only
    split
    · trivial
    · exact persistCloseAlone_readPhase _
  | persistClose a => exact persistCloseAlone_readPhase a

/-! ## What a client keeps -/

/-- The identity of the ledger is kept and nothing is taken away. -/
structure Ledger.Kept (d d' : Ledger) : Prop where
  minted : d'.Minted
  grows : d.Grows d'

section Kept

variable {d : Ledger} {now : Time} {e : RecordArgs}

theorem Ledger.Minted.kept (h : d.Minted) : d.Kept d := ⟨h, .refl d⟩

theorem Ledger.Minted.kept_amend (h : d.Minted) {tid : String} {u : TradeUpdate}
    (he : d.Has e.tradeId) : d.Kept (d.amend tid u now e) :=
  ⟨h.amend he, grows_amend⟩

theorem resize_kept (h : d.Minted) {tid : String} {u : TradeUpdate}
    (hk : ∀ text, e.eventType ≠ .other text) (he : d.Has e.tradeId) :
    d.Kept ((resize tid u now e).run d).1 := by
  rw [resize_run hk]
  split
  · exact h.kept
  · exact h.kept_amend he

theorem flipLegs_kept (h : d.Minted) (a : FlipArgs) (row : FlipCols) (ht : d.Has a.tradeId) :
    d.Kept ((flipLegs a row).run d).1 := by
  obtain ⟨mid, hm⟩ : ∃ mid, mid = d.amend a.tradeId (a.update row) a.flipTime (a.closeEvent row) :=
    ⟨_, rfl⟩
  have hmid : d.Kept mid := hm ▸ h.kept_amend ht
  have hu : mid.Unused (a.childRow row mid.nextSjId) :=
    hmid.minted.unused rfl (by rintro k ⟨⟩)
  rw [flipLegs_run h a row ht hm]
  refine ⟨hmid.minted.spawn hu rfl rfl ?_ rfl rfl, hmid.grows.trans (hu.grows rfl)⟩
  rintro p ⟨⟩
  exact hmid.grows.has ht

theorem bookClose_kept (h : d.Minted) (a : PersistArgs) (row : CloseCols) (ht : d.Has a.tradeId) :
    d.Kept ((bookClose a row fun
      | some _ => .commit (.ret (.bool true))
      | none => .ret (.bool false)).run d).1 := by
  rw [Prog.run, bookClose_runWith rfl]
  split
  · exact h.kept
  · exact h.kept_amend ht

theorem openPaperTrade_kept (h : d.Minted) (a : OpenArgs) :
    d.Kept ((openPaperTrade a).run d).1 := by
  cases ha : a.standingDown with
  | some reason =>
    rw [openPaperTrade, ha]
    exact h.kept
  | none =>
    rw [openPaperTrade_run h a ha]
    split
    · exact h.kept
    · next hk =>
      have hu : d.Unused (a.row d.nextSjId) := h.unused rfl (by rintro k ⟨⟩; exact hk)
      exact ⟨h.spawn hu rfl rfl (by rintro p ⟨⟩) rfl rfl, hu.grows rfl⟩

end Kept

section readsIn

variable {env : Env} {d : Ledger} {p : Prog Ledger Reply}

/-- The earlier ledgers that a client may have read. -/
abbrev Ledger.Before (d d' : Ledger) : Prop := d'.Minted ∧ d'.Grows d

/-- A client that reads the row of its trade first does nothing without it; else the row is one of
an earlier ledger. -/
theorem selectRow_kept (h : d.Minted) {α : Type} {find : Ledger → Option TradeRow}
    {cols : TradeRow → α} {k : Option α → Prog Ledger Reply} {reply : Reply}
    (hnone : k none = .ret reply)
    (hsome : ∀ d' r, d'.Grows d → find d' = some r →
      ∀ p', (k (some (cols r))).ReadsIn d.Before p' → d.Kept (p'.run d).1)
    (hp : (Prog.select (fun d => (find d).map cols) k).ReadsIn d.Before p) :
    d.Kept (p.run d).1 := by
  obtain ⟨d', hd', p', hp', hrun⟩ := hp.of_select ⟨h, .refl d⟩
  rw [← hrun]
  cases hr : find d' with
  | none =>
    rw [hr, Option.map_none, hnone] at hp'
    rw [show p' = .ret reply from hp']
    exact h.kept
  | some r =>
    rw [hr, Option.map_some] at hp'
    exact hsome d' r hd'.2 hr p' hp'

theorem persistCloseAlone_kept (h : d.Minted) {a : PersistArgs}
    (hp : (persistCloseAlone a).ReadsIn d.Before p) : d.Kept (p.run d).1 := by
  refine selectRow_kept h rfl (fun d' r hgrows hr p' hp' => ?_) hp
  rw [show p' = bookClose a r.closeCols _ from hp']
  exact bookClose_kept h a _ (hgrows.has (has_of_openTrade? hr))

theorem openPaperTrade_readsIn {P : Ledger → Prop} {a : OpenArgs}
    (hp : (openPaperTrade a).ReadsIn P p) : p = openPaperTrade a := by
  cases ha : a.standingDown with
  | some reason =>
    rw [openPaperTrade, ha] at hp ⊢
    exact hp
  | none =>
    rw [openPaperTrade, ha] at hp ⊢
    exact hp

/-- The step lemma: a call, whatever it has read before it takes the lock. -/
theorem Call.kept (h : d.Minted) (c : Call) (hp : (c.prog env).ReadsIn d.Before p) :
    d.Kept (p.run d).1 := by
  cases c with
  | openTrade a =>
    rw [openPaperTrade_readsIn hp]
    exact openPaperTrade_kept h a
  | scale a =>
    refine selectRow_kept h rfl (fun d' r hgrows hr p' hp' => ?_) hp
    dsimp only at hp'
    split at hp'
    · rw [show p' = .ret (.bool false) from hp']
      exact h.kept
    · rw [show p' = resize a.tradeId (a.update r.scaleCols) a.now (a.event r.scaleCols) from hp']
      exact resize_kept h (a.event_known _) (hgrows.has (has_of_openTrade? hr))
  | leverage a =>
    refine selectRow_kept h rfl (fun d' r hgrows hr p' hp' => ?_) hp
    dsimp only at hp'
    split at hp'
    · rw [show p' = .ret (.bool false) from hp']
      exact h.kept
    · rw [show p' = resize a.tradeId (a.update r.leverageCols) a.now (a.event r.leverageCols)
        from hp']
      exact resize_kept h (by intro text h; cases h) (hgrows.has (has_of_openTrade? hr))
  | flip a =>
    have hp : (applyFlip a).ReadsIn d.Before p := hp
    unfold applyFlip at hp
    split at hp
    · rw [show p = .ret _ from hp]
      exact h.kept
    · refine selectRow_kept h rfl (fun d' r hgrows hr p' hp' => ?_) hp
      dsimp only at hp'
      split at hp'
      · rw [show p' = .ret .none from hp']
        exact h.kept
      · rw [show p' = flipLegs a r.flipCols from hp']
        exact flipLegs_kept h a _ (hgrows.has (has_of_openTrade? hr))
  | closePerp a =>
    rw [show p = closePerpTrade env a from hp]
    rcases (Call.closePerp a).run_cases env h with hc | hc
    · rw [show ((closePerpTrade env a).run d).1 = d from hc]
      exact h.kept
    · have key : ∀ d', (Call.closePerp a).Effect env d d' → d.Kept d' := by
        intro d' he
        cases he with
        | closed _ hr => exact h.kept_amend (has_of_openTrade? hr)
      exact key _ hc
  | closeCarry a =>
    refine selectRow_kept h rfl (fun d' r _ _ p' hp' => ?_) hp
    dsimp only at hp'
    split at hp'
    · rw [show p' = .ret _ from hp']
      exact h.kept
    · exact persistCloseAlone_kept h hp'
  | persistClose a => exact persistCloseAlone_kept h hp

end readsIn

/-- The calls of any number of processes meet what the rules of the store ask. -/
theorem Call.sound {ι : Type} (env : Env) (calls : ι → Call) :
    Sys.Sound Minted Grows (progs env calls) where
  readPhase i := (calls i).readPhase env
  refl := .refl
  trans := .trans
  keep i _ _ hd hp :=
    have h := (calls i).kept hd hp
    ⟨h.minted, h.grows⟩

end P300
