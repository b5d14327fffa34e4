import P300.Lib.Dict
import P300.Lib.Trace
import P300.Ops.Backup

/-!
# Backup runs

`backup.py`: `_backup` writes a snapshot under a name that is no copy, checks it, renames it and
prunes. A run may fail or be killed at any point; what is named as a copy is checked at all times,
and no later run loses a copy without a newer one.
-/

namespace P300

/-! ## Runs -/

/-- The file is matched by `prod-*.db.partial`. -/
def isPartialName (f : String) : Bool :=
  ("prod-".toList.isPrefixOf? f.toList).any fun rest => ".db.partial".toList.isSuffixOf rest

/-- `dest.name + ".partial"` -/
def partialName (date : CopyDate) : String :=
  String.ofList ((copyName date).toList ++ ".partial".toList)

/-- The arguments that `main` accepts. -/
structure BackupArgs where
  keepDaily : ℕ := 7
  keepWeekly : ℕ := 4
  verifyFull : Bool := false
  keepDaily_pos : 1 ≤ keepDaily

inductive BackupResult
  | ok
  | sourceMissing
  | partialLocked
  | lowDisk
  | snapshotFailed
  | checkFailed
  | pruneFailed
  /-- Any other exception. -/
  | error
  deriving DecidableEq

/-- The exit code. -/
def BackupResult.code : BackupResult → ℕ
  | .ok => 0
  | .sourceMissing | .lowDisk => 2
  | _ => 1

inductive BackupPc
  | idle
  /-- Removing the leftover partials. -/
  | clearing (rest : List String)
  | snapshotting (date : CopyDate)
  | verifying (date : CopyDate)
  | replacing (date : CopyDate)
  /-- The run has failed; `finally` removes the partial. -/
  | cleaning (date : CopyDate) (result : BackupResult)
  /-- The new copy is there. -/
  | pruning (rest : List String)

/-- The run has put its copy. -/
def BackupPc.copied : BackupPc → Bool
  | pruning _ => true
  | _ => false

/-- A run that has ended. -/
structure BackupEnd (γ : Type*) where
  /-- None, if it was killed. -/
  result : Option BackupResult
  copied : Bool
  before : Dict String γ
  after : Dict String γ

/-- The directory of the copies, with the run that is under way. -/
structure BackupSys (γ : Type*) where
  dir : Dict String γ
  args : BackupArgs
  pc : BackupPc := .idle
  /-- The directory when the run began. -/
  before : Dict String γ
  /-- The dates of the copies put so far. -/
  taken : List CopyDate := []
  ended : List (BackupEnd γ) := []

inductive BackupAct (γ : Type*)
  | begin (args : BackupArgs) (sourceExists : Bool)
  /-- A leftover partial is removed, or is held open. -/
  | unlink (ok : Bool)
  | measure (srcSize free : ℕ) (date : CopyDate)
  /-- `VACUUM INTO` writes. -/
  | write (c : γ)
  /-- `VACUUM INTO` is done, or fails. -/
  | snapshot (c : Option γ)
  | verify
  | replace
  /-- `partial.unlink(missing_ok=True)` of a run that has failed. -/
  | cleanup (ok : Bool)
  | delete (ok : Bool)
  | finish
  /-- Any other exception. -/
  | raise
  | kill

namespace BackupSys

variable {γ : Type*} (check : Bool → γ → String) (s : BackupSys γ)

def init (dir : Dict String γ) (args : BackupArgs) : BackupSys γ := { dir, args, before := dir }

/-- The run ends, and leaves the directory `dir`. -/
def stop (result : Option BackupResult) (dir : Dict String γ) : BackupSys γ :=
  { s with
    dir, pc := .idle
    ended := s.ended ++ [{ result, copied := s.pc.copied, before := s.before, after := dir }] }

def exit (result : BackupResult) : BackupSys γ := s.stop (some result) s.dir

/-- `os.replace(partial, dest)`, and what `_prune` will delete. -/
def put (date : CopyDate) (c : γ) : BackupSys γ :=
  let dir := (s.dir.erase (partialName date)).set (copyName date) c
  { s with
    dir
    pc := .pruning (prune s.args.keepDaily s.args.keepWeekly dir.keys).2
    taken := s.taken ++ [date] }

def step : BackupAct γ → Option (BackupSys γ)
  | .begin args sourceExists =>
    match s.pc with
    | .idle =>
      let s := { s with
        args, before := s.dir
        pc := .clearing ((s.dir.keys.filter isPartialName).insertionSort (· ≤ ·)) }
      if sourceExists then some s else some (s.exit .sourceMissing)
    | _ => none
  | .unlink ok =>
    match s.pc with
    | .clearing (f :: rest) =>
      if ok then some { s with dir := s.dir.erase f, pc := .clearing rest }
      else some (s.exit .partialLocked)
    | _ => none
  | .measure srcSize free date =>
    match s.pc with
    | .clearing [] =>
      if free < 2 * srcSize then some (s.exit .lowDisk)
      else some { s with pc := .snapshotting date }
    | _ => none
  | .write c =>
    match s.pc with
    | .snapshotting date => some { s with dir := s.dir.set (partialName date) c }
    | _ => none
  | .snapshot c =>
    match s.pc with
    | .snapshotting date =>
      match c with
      | some c => some { s with dir := s.dir.set (partialName date) c, pc := .verifying date }
      | none => some { s with pc := .cleaning date .snapshotFailed }
    | _ => none
  | .verify =>
    match s.pc with
    | .verifying date =>
      -- a partial that cannot be opened has the exception as its result
      if ((s.dir.get? (partialName date)).map (check s.args.verifyFull)) = some "ok" then
        some { s with pc := .replacing date }
      else some { s with pc := .cleaning date .checkFailed }
    | _ => none
  | .replace =>
    match s.pc with
    | .replacing date => (s.dir.get? (partialName date)).map (s.put date)
    | _ => none
  | .cleanup ok =>
    match s.pc with
    | .cleaning date result =>
      -- an exception here takes the place of the result
      if ok then some (s.stop (some result) (s.dir.erase (partialName date)))
      else some (s.exit .error)
    | _ => none
  | .delete ok =>
    match s.pc with
    | .pruning (f :: rest) =>
      if ok then some { s with dir := s.dir.erase f, pc := .pruning rest }
      else some (s.exit .pruneFailed)
    | _ => none
  | .finish =>
    match s.pc with
    | .pruning [] => some (s.exit .ok)
    | _ => none
  | .raise =>
    match s.pc with
    | .snapshotting date | .verifying date | .replacing date =>
      some { s with pc := .cleaning date .error }
    | .clearing _ | .pruning _ => some (s.exit .error)
    | .idle | .cleaning .. => none
  | .kill =>
    match s.pc with
    | .idle => none
    | _ => some (s.stop none s.dir)

def run (acts : List (BackupAct γ)) : Option (BackupSys γ) := Trace.run (step check) s acts

end BackupSys

/-! ## Names -/

theorem suffix_of_readDigits {width n : ℕ} {cs rest : List Char}
    (h : readDigits width cs = some (n, rest)) : rest <:+ cs := by
  rw [readDigits] at h
  split at h <;> cases h
  exact List.drop_suffix ..

theorem suffix_of_readDecimals {width n : ℕ} {cs rest : List Char}
    (h : readDecimals width cs = some (n, rest)) : rest <:+ cs := by
  rw [readDecimals] at h
  split at h <;> cases h
  exact List.drop_suffix ..

theorem suffix_of_isPrefixOf? {pre cs rest : List Char} (h : pre.isPrefixOf? cs = some rest) :
    rest <:+ cs := by
  induction pre generalizing cs with
  | nil =>
    cases h
    exact List.suffix_rfl
  | cons c pre ih =>
    cases cs with
    | nil => cases h
    | cons c' cs =>
      change (if (c == c') = true then pre.isPrefixOf? cs else none) = some rest at h
      split at h
      · exact (ih h).trans (List.suffix_cons ..)
      · cases h

theorem suffix_of_filter {p : ℕ × List Char → Bool} {width : ℕ} {cs : List Char} {r : ℕ × List Char}
    (h : r ∈ ((readDigits width cs).filter p).toList) : r.2 <:+ cs := by
  rw [Option.mem_toList, Option.filter_eq_some_iff] at h
  exact suffix_of_readDigits h.1

theorem suffix_of_monthReadings {cs : List Char} {r : ℕ × List Char} (h : r ∈ monthReadings cs) :
    r.2 <:+ cs := by
  rw [monthReadings, List.mem_append] at h
  exact h.elim suffix_of_filter suffix_of_filter

theorem suffix_of_twoDigitDay {cs : List Char} {r : ℕ × List Char} (h : twoDigitDay cs = some r) :
    r.2 <:+ cs := by
  cases cs with
  | nil => cases h
  | cons c cs =>
    rw [twoDigitDay] at h
    split at h
    · obtain ⟨second, hsecond, rfl⟩ := Option.map_eq_some_iff.mp h
      exact (suffix_of_readDecimals hsecond).trans (List.suffix_cons ..)
    · exact suffix_of_filter (Option.mem_toList.mpr h)

theorem suffix_of_dayReadings {cs : List Char} {r : ℕ × List Char} (h : r ∈ dayReadings cs) :
    r.2 <:+ cs := by
  rw [dayReadings, List.mem_append, List.mem_append] at h
  rcases h with (h | h) | h
  · exact suffix_of_twoDigitDay (Option.mem_toList.mp h)
  · exact suffix_of_filter h
  · rw [Option.mem_toList, Option.bind_eq_some_iff] at h
    obtain ⟨cs', hcs', h⟩ := h
    exact (suffix_of_filter (Option.mem_toList.mpr h)).trans (suffix_of_isPrefixOf? hcs')

/-- The name of a copy ends in `.db`. -/
theorem suffix_of_copyDate {f : String} (h : (copyDate f).isSome) : ".db".toList <:+ f.toList := by
  obtain ⟨date, h⟩ := Option.isSome_iff_exists.mp h
  rw [copyDate] at h
  obtain ⟨cs, hcs, h⟩ := Option.bind_eq_some_iff.mp h
  obtain ⟨⟨year, cs'⟩, hyear, h⟩ := Option.bind_eq_some_iff.mp h
  obtain ⟨⟨month, day⟩, hmd, -⟩ := Option.bind_eq_some_iff.mp h
  have hmem := List.mem_of_head? hmd
  rw [monthDayReadings, List.mem_flatMap] at hmem
  obtain ⟨m, hm, hmem⟩ := hmem
  obtain ⟨d, hd, heq⟩ := List.mem_filterMap.mp hmem
  split at heq
  · next hdb =>
    rw [← hdb]
    exact (suffix_of_dayReadings hd).trans ((suffix_of_monthReadings hm).trans
      ((suffix_of_readDecimals hyear).trans (suffix_of_isPrefixOf? hcs)))
  · cases heq

/-- A partial is no copy. -/
theorem copyDate_eq_none {f : String} (h : ".partial".toList <:+ f.toList) : copyDate f = none := by
  by_contra hf
  have hdb := suffix_of_copyDate (Option.isSome_iff_ne_none.mpr hf)
  have hsub := List.suffix_of_suffix_length_le hdb h (by decide)
  exact absurd hsub (by decide)

theorem copyDate_partialName (date : CopyDate) : copyDate (partialName date) = none := by
  refine copyDate_eq_none ?_
  have htext : (partialName date).toList = (copyName date).toList ++ ".partial".toList :=
    String.toList_ofList ..
  rw [htext]
  exact List.suffix_append (copyName date).toList ".partial".toList

theorem copyDate_of_isPartialName {f : String} (h : isPartialName f = true) :
    copyDate f = none := by
  rw [isPartialName, Option.any_eq_true] at h
  obtain ⟨rest, hrest, hsuf⟩ := h
  have hdb : ".partial".toList <:+ ".db.partial".toList := by decide
  exact copyDate_eq_none
    (hdb.trans ((List.isSuffixOf_iff_suffix.mp hsuf).trans (suffix_of_isPrefixOf? hrest)))

/-! ## The newest copy -/

theorem mem_dated_iff {dir : List String} {p : CopyDate × String} :
    p ∈ dated dir ↔ p.2 ∈ dir ∧ copyDate p.2 = some p.1 := by
  rw [dated, List.mem_insertionSort, List.mem_filterMap]
  constructor
  · rintro ⟨f, hf, hp⟩
    obtain ⟨d, hd, rfl⟩ := Option.map_eq_some_iff.mp hp
    exact ⟨hf, hd⟩
  · rintro ⟨hf, hd⟩
    exact ⟨p.2, hf, by rw [hd]; rfl⟩

/-- A prune that keeps a copy at all keeps the newest one. -/
theorem exists_newest {dir : List String} {keepDaily : ℕ} (keepWeekly : ℕ) (hkeep : 1 ≤ keepDaily)
    {f : String} (hf : f ∈ dir) {d : CopyDate} (hd : copyDate f = some d) :
    ∃ f' d', f' ∈ dir ∧ copyDate f' = some d' ∧ f' ∉ (prune keepDaily keepWeekly dir).2 ∧
      ∀ g ∈ dir, ∀ e, copyDate g = some e → e ≤ d' := by
  have hmem : (d, f) ∈ dated dir := mem_dated_iff.mpr ⟨hf, hd⟩
  obtain ⟨init, last, hl⟩ := List.eq_nil_or_concat (dated dir) |>.resolve_left
    (List.ne_nil_of_mem hmem)
  rw [List.concat_eq_append] at hl
  have hlast : last ∈ dated dir := hl ▸ List.mem_append_right _ (List.mem_singleton_self _)
  obtain ⟨hdir, hdate⟩ := mem_dated_iff.mp hlast
  refine ⟨last.2, last.1, hdir, hdate, fun hdel => ?_, fun g hg e he => ?_⟩
  · obtain ⟨-, hnot, -⟩ := of_decide_eq_true (List.mem_filter.mp hdel).2 |>.choose_spec
    refine hnot (List.mem_append_left _ ?_)
    rw [hl, List.map_append, List.map_singleton, List.length_append, List.length_singleton,
      List.drop_append_of_le_length (by omega)]
    exact List.mem_append_right _ (List.mem_singleton_self _)
  · have hg' : (e, g) ∈ init ++ [last] := hl ▸ mem_dated_iff.mpr ⟨hg, he⟩
    rcases List.mem_append.mp hg' with hin | hin
    · have hsorted := List.pairwise_insertionSort datedLe
        (dir.filterMap fun f => (copyDate f).map fun d => (d, f))
      rw [show List.insertionSort _ _ = init ++ [last] from hl, List.pairwise_append] at hsorted
      exact Prod.Lex.monotone_fst _ _ (hsorted.2.2 _ hin _ (List.mem_singleton_self _))
    · rw [← List.mem_singleton.mp hin]

/-! ## What holds at all times -/

section safety

variable {γ : Type*} {check : Bool → γ → String} {s s' : BackupSys γ} {dir dir' : Dict String γ}

/-- Each copy has passed a check. -/
def AllChecked (check : Bool → γ → String) (dir : Dict String γ) : Prop :=
  ∀ f c, dir.get? f = some c → (copyDate f).isSome → ∃ full, check full c = "ok"

/-- The two directories have the same copies. -/
def SameCopies (dir dir' : Dict String γ) : Prop :=
  ∀ f, (copyDate f).isSome → dir'.get? f = dir.get? f

/-- A copy of the date or a newer one. -/
def HasSince (dir : Dict String γ) (date : CopyDate) : Prop :=
  ∃ f d, copyDate f = some d ∧ date ≤ d ∧ (dir.get? f).isSome

theorem SameCopies.rfl : SameCopies dir dir := fun _ _ => Eq.refl _

theorem SameCopies.trans {dir'' : Dict String γ} (h : SameCopies dir dir')
    (h' : SameCopies dir' dir'') : SameCopies dir dir'' := fun f hf => (h' f hf).trans (h f hf)

theorem sameCopies_erase {f : String} (hf : copyDate f = none) : SameCopies dir (dir.erase f) := by
  intro g hg
  rw [Dict.get?_erase, if_neg]
  rintro rfl
  rw [hf] at hg
  cases hg

theorem sameCopies_set {f : String} (hf : copyDate f = none) (c : γ) :
    SameCopies dir (dir.set f c) := by
  intro g hg
  rw [Dict.get?_set, if_neg]
  rintro rfl
  rw [hf] at hg
  cases hg

theorem AllChecked.same (h : AllChecked check dir) (hs : SameCopies dir dir') :
    AllChecked check dir' := fun f c hc hf => h f c ((hs f hf).symm.trans hc) hf

theorem HasSince.same {date : CopyDate} (h : HasSince dir date) (hs : SameCopies dir dir') :
    HasSince dir' date := by
  obtain ⟨f, d, hd, hle, hf⟩ := h
  exact ⟨f, d, hd, hle, by rwa [hs f (by rw [hd]; rfl)]⟩

end safety

namespace BackupSys

variable {γ : Type*} {check : Bool → γ → String} {s s' : BackupSys γ}

/-- What holds in every run of runs. -/
structure Safe (check : Bool → γ → String) (s : BackupSys γ) : Prop where
  checked : AllChecked check s.dir
  fresh : ∀ date ∈ s.taken, HasSince s.dir date
  clearing : ∀ rest, s.pc = .clearing rest → ∀ f ∈ rest, copyDate f = none
  verified : ∀ date, s.pc = .replacing date → ∃ c, s.dir.get? (partialName date) = some c ∧
    ∃ full, check full c = "ok"
  /-- Until the new copy is put, the run has not touched a copy. -/
  kept : s.pc ≠ .idle → s.pc.copied = false → SameCopies s.before s.dir
  /-- The newest copy is not among those that are pruned. -/
  newest : ∀ rest, s.pc = .pruning rest → ∃ f d, copyDate f = some d ∧ (s.dir.get? f).isSome ∧
    f ∉ rest ∧ ∀ date ∈ s.taken, date ≤ d
  failed : ∀ date result, s.pc = .cleaning date result → result ≠ .ok
  ended : ∀ e ∈ s.ended, (e.result = some .ok → e.copied = true) ∧
    (e.copied = false → SameCopies e.before e.after)

theorem safe_init {dir : Dict String γ} (h : AllChecked check dir) (args : BackupArgs) :
    (init dir args).Safe check where
  checked := h
  fresh _ hd := nomatch hd
  clearing _ h := by cases h
  verified _ h := by cases h
  kept h := absurd rfl h
  newest _ h := by cases h
  failed _ _ h := by cases h
  ended _ he := nomatch he

/-- The run goes on without touching a copy. -/
theorem Safe.quiet (H : s.Safe check) {dir : Dict String γ} {pc : BackupPc}
    (hs : SameCopies s.dir dir) (hpc : s.pc ≠ .idle) (hcopied : s.pc.copied = false)
    (hnot : pc.copied = false)
    (hclearing : ∀ rest, pc = .clearing rest → ∀ f ∈ rest, copyDate f = none)
    (hverified : ∀ date, pc = .replacing date → ∃ c, dir.get? (partialName date) = some c ∧
      ∃ full, check full c = "ok")
    (hfailed : ∀ date result, pc = .cleaning date result → result ≠ .ok) :
    Safe check { s with dir, pc } where
  checked := H.checked.same hs
  fresh date hd := (H.fresh date hd).same hs
  clearing := hclearing
  verified := hverified
  kept _ _ := (H.kept hpc hcopied).trans hs
  newest rest h := by
    have h : pc = .pruning rest := h
    rw [h] at hnot
    cases hnot
  failed := hfailed
  ended := H.ended

/-- The run ends, or is killed. -/
theorem Safe.stop (H : s.Safe check) {dir : Dict String γ} (hs : SameCopies s.dir dir)
    (hpc : s.pc ≠ .idle) {result : Option BackupResult}
    (hok : result = some .ok → s.pc.copied = true) : (s.stop result dir).Safe check where
  checked := H.checked.same hs
  fresh date hd := (H.fresh date hd).same hs
  clearing _ h := by cases h
  verified _ h := by cases h
  kept h := absurd rfl h
  newest _ h := by cases h
  failed _ _ h := by cases h
  ended e he := by
    rcases List.mem_append.mp he with he | he
    · exact H.ended e he
    · rw [List.mem_singleton.mp he]
      exact ⟨hok, fun hc => (H.kept hpc hc).trans hs⟩

/-- The run has failed. -/
theorem Safe.cleaning (H : s.Safe check) (hpc : s.pc ≠ .idle) (hcopied : s.pc.copied = false)
    (date : CopyDate) {result : BackupResult} (hresult : result ≠ .ok) :
    Safe check { s with pc := .cleaning date result } :=
  H.quiet SameCopies.rfl hpc hcopied rfl (fun _ h => by cases h) (fun _ h => by cases h)
    fun _ _ h => by
      cases h
      exact hresult

/-- The new copy is put. -/
theorem Safe.put (H : s.Safe check) {date : CopyDate} (hpc : s.pc = .replacing date) {c : γ}
    (hc : s.dir.get? (partialName date) = some c) : (s.put date c).Safe check := by
  obtain ⟨c', hc', hgood⟩ := H.verified date hpc
  cases hc.symm.trans hc'
  set dir := (s.dir.erase (partialName date)).set (copyName date) c with hdir
  have hget : ∀ f, (copyDate f).isSome →
      dir.get? f = if f = copyName date then some c else s.dir.get? f := by
    intro f hf
    rw [hdir, Dict.get?_set]
    split
    · rfl
    · exact sameCopies_erase (copyDate_partialName date) f hf
  have hself : (dir.get? (copyName date)).isSome := by
    rw [hget _ (by rw [copyDate_copyName]; rfl), if_pos rfl]
    rfl
  have hkeeps : ∀ f, (copyDate f).isSome → (s.dir.get? f).isSome → (dir.get? f).isSome := by
    intro f hf hs
    rw [hget f hf]
    split
    · rfl
    · exact hs
  have hsince : ∀ e ∈ s.taken ++ [date], HasSince dir e := by
    intro e he
    rcases List.mem_append.mp he with he | he
    · obtain ⟨f, d, hd, hle, hf⟩ := H.fresh e he
      exact ⟨f, d, hd, hle, hkeeps f (by rw [hd]; rfl) hf⟩
    · rw [List.mem_singleton.mp he]
      exact ⟨copyName date, date, copyDate_copyName date, le_rfl, hself⟩
  refine ⟨fun f c' hf hdate => ?_, hsince, fun _ h => (by cases h), fun _ h => (by cases h),
    fun _ h => (by cases h), fun rest hrest => ?_, fun _ _ h => (by cases h), H.ended⟩
  · replace hf : dir.get? f = some c' := hf
    rw [hget f hdate] at hf
    split at hf
    · cases hf
      exact hgood
    · exact H.checked f c' hf hdate
  · cases hrest
    obtain ⟨f, d, hf, hd, hnot, hmax⟩ := exists_newest s.args.keepWeekly s.args.keepDaily_pos
      (dir.mem_keys_iff (copyName date) |>.mpr hself) (copyDate_copyName date)
    refine ⟨f, d, hd, (dir.mem_keys_iff f).mp hf, hnot, fun e he => ?_⟩
    obtain ⟨g, d', hd', hle, hg⟩ := hsince e he
    exact hle.trans (hmax g ((dir.mem_keys_iff g).mpr hg) d' hd')

/-- A copy is pruned that is not the newest. -/
theorem Safe.delete (H : s.Safe check) {f : String} {rest : List String}
    (hpc : s.pc = .pruning (f :: rest)) :
    Safe check { s with dir := s.dir.erase f, pc := .pruning rest } := by
  obtain ⟨g, d, hd, hg, hnot, hmax⟩ := H.newest _ hpc
  rw [List.mem_cons, not_or] at hnot
  have hleft : (s.dir.erase f).get? g = s.dir.get? g := by rw [Dict.get?_erase, if_neg hnot.1]
  refine ⟨fun f' c hc hf' => ?_, fun date hdate => ?_, fun _ h => (by cases h),
    fun _ h => (by cases h), fun _ h => (by cases h), fun rest' hrest => ?_,
    fun _ _ h => (by cases h), H.ended⟩
  · replace hc : (s.dir.erase f).get? f' = some c := hc
    rw [Dict.get?_erase] at hc
    split at hc
    · cases hc
    · exact H.checked f' c hc hf'
  · exact ⟨g, d, hd, hmax date hdate, hleft ▸ hg⟩
  · cases hrest
    exact ⟨g, d, hd, hleft ▸ hg, hnot.2, hmax⟩

theorem Safe.begin (H : s.Safe check) (args : BackupArgs) :
    Safe check { s with
      args, before := s.dir
      pc := .clearing ((s.dir.keys.filter isPartialName).insertionSort (· ≤ ·)) } where
  checked := H.checked
  fresh := H.fresh
  clearing rest h := by
    cases h
    intro f hf
    rw [List.mem_insertionSort, List.mem_filter] at hf
    exact copyDate_of_isPartialName hf.2
  verified _ h := by cases h
  kept _ _ := SameCopies.rfl
  newest _ h := by cases h
  failed _ _ h := by cases h
  ended := H.ended

theorem Safe.step (H : s.Safe check) {a : BackupAct γ} (h : s.step check a = some s') :
    s'.Safe check := by
  cases a with
  | begin args sourceExists =>
    rw [BackupSys.step] at h
    split at h
    · dsimp only at h
      split at h <;> cases h
      · exact H.begin args
      · refine (H.begin args).stop SameCopies.rfl BackupPc.noConfusion fun h => ?_
        cases h
    · cases h
  | unlink ok =>
    rw [BackupSys.step] at h
    split at h
    · next f rest hpc =>
      have hidle : s.pc ≠ .idle := by rw [hpc]; exact BackupPc.noConfusion
      have hcopied : s.pc.copied = false := by rw [hpc]; rfl
      have hnames := H.clearing _ hpc
      split at h <;> cases h
      · refine H.quiet (sameCopies_erase (hnames f List.mem_cons_self)) hidle hcopied rfl
          (fun rest' hrest => ?_) (fun _ h => by cases h) fun _ _ h => by cases h
        cases hrest
        exact fun g hg => hnames g (List.mem_cons_of_mem f hg)
      · exact H.stop SameCopies.rfl hidle fun h => by cases h
    · cases h
  | measure srcSize free date =>
    rw [BackupSys.step] at h
    split at h
    · next hpc =>
      have hidle : s.pc ≠ .idle := by rw [hpc]; exact BackupPc.noConfusion
      have hcopied : s.pc.copied = false := by rw [hpc]; rfl
      split at h <;> cases h
      · exact H.stop SameCopies.rfl hidle fun h => by cases h
      · exact H.quiet SameCopies.rfl hidle hcopied rfl (fun _ h => by cases h)
          (fun _ h => by cases h) fun _ _ h => by cases h
    · cases h
  | write c =>
    rw [BackupSys.step] at h
    split at h
    · next date hpc =>
      cases h
      have hquiet : Safe check { s with dir := _, pc := s.pc } :=
        H.quiet (sameCopies_set (copyDate_partialName date) c)
          (by rw [hpc]; exact BackupPc.noConfusion) (by rw [hpc]; rfl) (by rw [hpc]; rfl)
          (fun _ h => by rw [hpc] at h; cases h) (fun _ h => by rw [hpc] at h; cases h)
          fun _ _ h => by rw [hpc] at h; cases h
      exact hquiet
    · cases h
  | snapshot c =>
    rw [BackupSys.step] at h
    split at h
    · next date hpc =>
      have hidle : s.pc ≠ .idle := by rw [hpc]; exact BackupPc.noConfusion
      have hcopied : s.pc.copied = false := by rw [hpc]; rfl
      cases c with
      | some c =>
        cases h
        exact H.quiet (sameCopies_set (copyDate_partialName date) c) hidle hcopied rfl
          (fun _ h => by cases h) (fun _ h => by cases h) fun _ _ h => by cases h
      | none =>
        cases h
        exact H.cleaning hidle hcopied date BackupResult.noConfusion
    · cases h
  | verify =>
    rw [BackupSys.step] at h
    split at h
    · next date hpc =>
      have hidle : s.pc ≠ .idle := by rw [hpc]; exact BackupPc.noConfusion
      have hcopied : s.pc.copied = false := by rw [hpc]; rfl
      split at h <;> cases h
      · next hok =>
        obtain ⟨c, hc, hcheck⟩ := Option.map_eq_some_iff.mp hok
        refine H.quiet SameCopies.rfl hidle hcopied rfl (fun _ h => by cases h)
          (fun date' hdate => ?_) fun _ _ h => by cases h
        cases hdate
        exact ⟨c, hc, _, hcheck⟩
      · exact H.cleaning hidle hcopied date BackupResult.noConfusion
    · cases h
  | replace =>
    rw [BackupSys.step] at h
    split at h
    · next date hpc =>
      obtain ⟨c, hc, rfl⟩ := Option.map_eq_some_iff.mp h
      exact H.put hpc hc
    · cases h
  | cleanup ok =>
    rw [BackupSys.step] at h
    split at h
    · next date result hpc =>
      have hidle : s.pc ≠ .idle := by rw [hpc]; exact BackupPc.noConfusion
      split at h <;> cases h
      · exact H.stop (sameCopies_erase (copyDate_partialName date)) hidle fun h =>
          absurd (Option.some.inj h) (H.failed date result hpc)
      · exact H.stop SameCopies.rfl hidle fun h => by cases h
    · cases h
  | delete ok =>
    rw [BackupSys.step] at h
    split at h
    · next f rest hpc =>
      split at h <;> cases h
      · exact H.delete hpc
      · exact H.stop SameCopies.rfl (by rw [hpc]; exact BackupPc.noConfusion) fun h => by cases h
    · cases h
  | finish =>
    rw [BackupSys.step] at h
    split at h
    · next hpc =>
      cases h
      exact H.stop SameCopies.rfl (by rw [hpc]; exact BackupPc.noConfusion) fun _ => by
        rw [hpc]
        rfl
    · cases h
  | raise =>
    cases hpc : s.pc with
    | idle | cleaning date result =>
      simp only [BackupSys.step, hpc] at h
      cases h
    | clearing rest | pruning rest =>
      simp only [BackupSys.step, hpc] at h
      cases h
      exact H.stop SameCopies.rfl (by rw [hpc]; exact BackupPc.noConfusion) fun h => by cases h
    | snapshotting date | verifying date | replacing date =>
      simp only [BackupSys.step, hpc] at h
      cases h
      exact H.cleaning (by rw [hpc]; exact BackupPc.noConfusion) (by rw [hpc]; rfl) date
        BackupResult.noConfusion
  | kill =>
    rw [BackupSys.step] at h
    split at h
    · cases h
    · next hpc =>
      cases h
      exact H.stop SameCopies.rfl hpc fun h => by cases h

/-- At any moment of any series of runs, each of which may fail or be killed anywhere: each copy has
passed a check; for each copy ever put there is one of that day or a newer one; a run that exits
with 0 has put its copy; and a run that has not put its copy, whether it has exited, was killed or
is under way, has left the copies as they were. -/
theorem safe {dir : Dict String γ} {args : BackupArgs} (hdir : AllChecked check dir)
    {acts : List (BackupAct γ)} (h : (init dir args).run check acts = some s) :
    AllChecked check s.dir ∧ (∀ date ∈ s.taken, HasSince s.dir date) ∧
    (∀ e ∈ s.ended, (∀ result ∈ e.result, result.code = 0 → e.copied = true) ∧
      (e.copied = false → SameCopies e.before e.after)) ∧
    (s.pc ≠ .idle → s.pc.copied = false → SameCopies s.before s.dir) := by
  have H : s.Safe check := Trace.invariant (fun _ _ _ H ha => H.step ha) (safe_init hdir args) h
  refine ⟨H.checked, H.fresh, fun e he => ?_, H.kept⟩
  refine (H.ended e he).imp_left fun hok result hresult hcode => hok ?_
  rw [Option.mem_def.mp hresult]
  cases result with
  | ok => rfl
  | _ => cases hcode

theorem inRange_killedDay : InRange (ofCivil 2026 9 21) := by decide

/-- A run is killed while it writes; the one after it puts the copy. -/
def killedRun : List (BackupAct Bool) :=
  let args := { keepDaily := 2, keepWeekly := 0, keepDaily_pos := Nat.le_succ 1 }
  let day := ⟨ofCivil 2026 9 21, inRange_killedDay⟩
  [.begin args true, .measure 5 20 day, .write false, .kill, .begin args true, .unlink true,
    .measure 5 20 day, .snapshot (some true), .verify, .replace, .finish]

theorem safe_killedRun : ∃ s : BackupSys Bool,
    (init .empty { keepDaily_pos := by decide }).run (fun _ c => if c then "ok" else "broken")
      killedRun = some s ∧
    s.dir.keys = ["prod-20260921.db"] ∧
    s.ended.map (fun e => (e.result, e.copied)) = [(none, false), (some .ok, true)] ∧
    (∀ date ∈ s.taken, HasSince s.dir date) ∧
    ∀ e ∈ s.ended, e.copied = false → SameCopies e.before e.after := by
  have hrun : ((init .empty { keepDaily_pos := by decide }).run
      (fun _ c => if c then "ok" else "broken") killedRun).map
      (fun s => (s.dir.keys, s.ended.map fun e => (e.result, e.copied))) =
      some (["prod-20260921.db"], [(none, false), (some .ok, true)]) := by
    decide +kernel
  obtain ⟨s, hs, hvalue⟩ := Option.map_eq_some_iff.mp hrun
  obtain ⟨hkeys, hended⟩ := Prod.mk.inj hvalue
  obtain ⟨-, hfresh, hkept, -⟩ := safe (fun _ _ hc => by cases hc) hs
  exact ⟨s, hs, hkeys, hended, hfresh, fun e he => (hkept e he).2⟩

end BackupSys

end P300
