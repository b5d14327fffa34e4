import Mathlib.Algebra.Order.Group.Defs
import Mathlib.Data.List.Sort
import Mathlib.Data.Rat.Defs
import Mathlib.Order.Basic

/-!
# Tables with a primary key

The rows of a table stand in the strict order of their keys, so that a key occurs once and a query
in key order reads them as they stand. Each statement (`restrict`, `update`, `insertOrReplace`,
`insertOrIgnore`) has one lemma that says what every key holds after it, and a table is known by
what its keys hold (`KeyTable.ext`).
-/

/-- A stored value. A column with a declared type holds each number in the one form of that type. -/
inductive SqlCell
  | null
  | integer (n : Int)
  | real (x : ℚ)
  | infinity (negative : Bool)
  | text (s : String)
  | blob (bytes : List UInt8)
  deriving DecidableEq

namespace SqlCell

/-- `=` in SQL, of two cells of columns with one type. -/
def SqlEq (a b : SqlCell) : Prop := a = b ∧ a ≠ .null

instance (a b : SqlCell) : Decidable (a.SqlEq b) := inferInstanceAs (Decidable (_ ∧ _))

/-- `> 0` in SQL; texts and blobs come after all numbers. -/
def positive : SqlCell → Bool
  | .null => false
  | .integer n => 0 < n
  | .real x => 0 < x
  | .infinity negative => !negative
  | .text _ => true
  | .blob _ => true

/-- The number in a cell, 0 if there is none. -/
def number : SqlCell → ℚ
  | .integer n => n
  | .real x => x
  | .null | .infinity _ | .text _ | .blob _ => 0

end SqlCell

/-- Rows by their key, in the order of the keys. -/
structure KeyTable (κ ρ : Type*) [LinearOrder κ] where
  rows : List (κ × ρ)
  sorted : rows.Pairwise fun r r' => r.1 < r'.1

namespace KeyTable

variable {κ ρ : Type*} [LinearOrder κ]

instance [DecidableEq ρ] : DecidableEq (KeyTable κ ρ) := fun t t' =>
  decidable_of_iff (t.rows = t'.rows)
    ⟨fun h => by cases t; cases t'; cases h; rfl, fun h => h ▸ rfl⟩

def empty : KeyTable κ ρ := ⟨[], .nil⟩

def get? (t : KeyTable κ ρ) (k : κ) : Option ρ := t.rows.lookup k

variable {t t' : KeyTable κ ρ} {k k' : κ} {v : ρ}

/-! ## Lookup -/

theorem lookup_of_lt {rows : List (κ × ρ)} (h : ∀ r ∈ rows, k < r.1) : rows.lookup k = none :=
  List.lookup_eq_none_iff.mpr fun r hr => bne_iff_ne.mpr (h r hr).ne

theorem lookup_of_ne {r : κ × ρ} (h : k ≠ r.1) (rows : List (κ × ρ)) :
    (r :: rows).lookup k = rows.lookup k := by
  rw [List.lookup_cons, beq_false_of_ne h]

theorem lookup_self (r : κ × ρ) (rows : List (κ × ρ)) : (r :: rows).lookup r.1 = some r.2 := by
  rw [List.lookup_cons, beq_self_eq_true]

theorem mem_rows_iff : (k, v) ∈ t.rows ↔ t.get? k = some v := by
  obtain ⟨rows, hs⟩ := t
  simp only [get?]
  induction rows with
  | nil => simp
  | cons r rows ih =>
    obtain ⟨hr, hs⟩ := List.pairwise_cons.mp hs
    by_cases hk : k = r.1
    · subst hk
      rw [lookup_self, List.mem_cons]
      constructor
      · rintro (hmem | hmem)
        · exact congrArg (fun r => some r.2) hmem.symm
        · exact absurd (hr _ hmem) (lt_irrefl _)
      · intro h
        exact .inl (by rw [← Option.some.inj h])
    · rw [lookup_of_ne hk, List.mem_cons]
      refine Iff.trans ⟨fun h => h.resolve_left ?_, .inr⟩ (ih hs)
      rintro rfl
      exact hk rfl

theorem rows_injective (h : t.rows = t'.rows) : t = t' := by
  cases t; cases t'; cases h; rfl

/-- Two tables whose keys hold the same are the same. -/
@[ext] theorem ext (h : ∀ k, t.get? k = t'.get? k) : t = t' := by
  have hmem : ∀ r, r ∈ t.rows ↔ r ∈ t'.rows := fun ⟨k, v⟩ => by
    rw [mem_rows_iff, mem_rows_iff, h k]
  have hnodup : ∀ t : KeyTable κ ρ, t.rows.Nodup := fun t =>
    t.sorted.imp fun hlt heq => (heq ▸ hlt).ne rfl
  apply rows_injective
  exact ((List.perm_ext_iff_of_nodup (hnodup t) (hnodup t')).mpr hmem).eq_of_pairwise
    (fun _ _ _ _ hab hba => absurd hab hba.not_gt) t.sorted t'.sorted

/-! ## Statements -/

/-- `SELECT … WHERE p(key) ORDER BY key`, and what `DELETE … WHERE NOT p(key)` leaves. -/
def restrict (p : κ → Bool) (t : KeyTable κ ρ) : KeyTable κ ρ :=
  ⟨t.rows.filter fun r => p r.1, t.sorted.filter _⟩

/-- `UPDATE … WHERE key = k` -/
def update (k : κ) (v : ρ) (t : KeyTable κ ρ) : KeyTable κ ρ where
  rows := t.rows.map fun r => if r.1 = k then (k, v) else r
  sorted := by
    have hkey : ∀ r : κ × ρ, (if r.1 = k then (k, v) else r).1 = r.1 := by
      intro r
      split
      · next h => exact h.symm
      · rfl
    rw [List.pairwise_map]
    exact t.sorted.imp fun h => by rwa [hkey, hkey]

/-- The number of rows that an `UPDATE … WHERE key = k` finds. -/
def matches_ (k : κ) (t : KeyTable κ ρ) : ℕ := (t.rows.filter fun r => r.1 = k).length

/-- `INSERT OR REPLACE` -/
def insertOrReplace (k : κ) (v : ρ) (t : KeyTable κ ρ) : KeyTable κ ρ where
  rows := (t.rows.filter fun r => r.1 < k) ++ (k, v) :: t.rows.filter fun r => k < r.1
  sorted := by
    refine List.pairwise_append.mpr ⟨t.sorted.filter _, List.pairwise_cons.mpr
      ⟨fun r hr => ?_, t.sorted.filter _⟩, fun r hr r' hr' => ?_⟩
    · simpa using (List.mem_filter.mp hr).2
    · have hlt : r.1 < k := by simpa using (List.mem_filter.mp hr).2
      rcases List.mem_cons.mp hr' with rfl | hr'
      · exact hlt
      · exact hlt.trans (by simpa using (List.mem_filter.mp hr').2)

/-- `INSERT OR IGNORE` -/
def insertOrIgnore (k : κ) (v : ρ) (t : KeyTable κ ρ) : KeyTable κ ρ :=
  if (t.get? k).isSome then t else t.insertOrReplace k v

/-! ## What a key holds after a statement -/

theorem get?_restrict (p : κ → Bool) (t : KeyTable κ ρ) (k : κ) :
    (t.restrict p).get? k = if p k then t.get? k else none := by
  refine Option.ext fun v => ?_
  have hfilter : (k, v) ∈ (t.restrict p).rows ↔ (k, v) ∈ t.rows ∧ p k :=
    List.mem_filter (p := fun r : κ × ρ => p r.1)
  rw [← mem_rows_iff, hfilter, mem_rows_iff]
  split <;> simp [*]

/-- A query that reads the rows below a key only. -/
theorem filterMap_rows_congr {β : Type*} {f : κ × ρ → Option β} {b : κ}
    (hf : ∀ r, b ≤ r.1 → f r = none) (h : ∀ k < b, t.get? k = t'.get? k) :
    t.rows.filterMap f = t'.rows.filterMap f := by
  have hbelow : ∀ t : KeyTable κ ρ,
      (t.restrict (· < b)).rows.filterMap f = t.rows.filterMap f := by
    intro t
    rw [restrict, List.filterMap_filter]
    refine List.filterMap_congr fun r _ => ?_
    split
    · rfl
    · next hlt => exact (hf r (not_lt.mp fun h => hlt (decide_eq_true h))).symm
  have heq : t.restrict (· < b) = t'.restrict (· < b) := by
    refine ext fun k => ?_
    rw [get?_restrict, get?_restrict]
    split
    · next hlt => exact h k (of_decide_eq_true hlt)
    · rfl
  rw [← hbelow t, heq, hbelow]

theorem get?_update (t : KeyTable κ ρ) (k k' : κ) (v : ρ) :
    (t.update k v).get? k' = if k' = k then (t.get? k).map fun _ => v else t.get? k' := by
  obtain ⟨rows, hs⟩ := t
  simp only [get?, update]
  induction rows with
  | nil => simp
  | cons r rows ih =>
    obtain ⟨a, w⟩ := r
    obtain ⟨hr, hs⟩ := List.pairwise_cons.mp hs
    rw [List.map_cons, List.lookup_cons, List.lookup_cons, List.lookup_cons, ih hs]
    by_cases ha : a = k
    · subst ha
      by_cases hk' : k' = a
      · simp [hk']
      · simp [hk', beq_false_of_ne hk']
    · by_cases hk' : k' = k
      · subst hk'
        simp [ha, beq_false_of_ne (Ne.symm ha)]
      · simp [ha, hk']

theorem get?_insertOrReplace (t : KeyTable κ ρ) (k k' : κ) (v : ρ) :
    (t.insertOrReplace k v).get? k' = if k' = k then some v else t.get? k' := by
  refine Option.ext fun w => ?_
  rw [← mem_rows_iff]
  simp only [insertOrReplace, List.mem_append, List.mem_filter, List.mem_cons, mem_rows_iff,
    decide_eq_true_eq, Prod.mk.injEq]
  rcases lt_trichotomy k' k with h | rfl | h
  · simp [h, h.ne, h.not_gt]
  · simp [eq_comm]
  · simp [h, h.ne', h.not_gt]

theorem get?_insertOrIgnore (t : KeyTable κ ρ) (k k' : κ) (v : ρ) :
    (t.insertOrIgnore k v).get? k' = (t.get? k').or (if k' = k then some v else none) := by
  rw [insertOrIgnore]
  split
  · next h =>
    by_cases hk : k' = k
    · subst hk
      rw [if_pos rfl, Option.or_of_isSome h]
    · rw [if_neg hk, Option.or_none]
  · next h =>
    rw [get?_insertOrReplace]
    by_cases hk : k' = k
    · subst hk
      rw [if_pos rfl, Option.not_isSome_iff_eq_none.mp h, Option.none_or, if_pos rfl]
    · rw [if_neg hk, if_neg hk, Option.or_none]

/-! ## The rows from a key on -/

theorem exists_last (h : t.rows ≠ []) : ∃ r ∈ t.rows, ∀ r' ∈ t.rows, r'.1 ≤ r.1 := by
  refine ⟨t.rows.getLast h, List.getLast_mem h, fun r' hr' => ?_⟩
  have hsorted := t.sorted
  rw [← List.dropLast_append_getLast h] at hsorted hr'
  rcases List.mem_append.mp hr' with hr' | hr'
  · exact ((List.pairwise_append.mp hsorted).2.2 r' hr' _ List.mem_cons_self).le
  · rw [List.mem_singleton.mp hr']

/-- The rows from a key on are a suffix of the rows from an earlier key on. -/
theorem restrict_suffix {a b : κ} (hab : a ≤ b) :
    (t.restrict (b ≤ ·)).rows <:+ (t.restrict (a ≤ ·)).rows := by
  obtain ⟨rows, hs⟩ := t
  simp only [restrict]
  induction rows with
  | nil => exact List.suffix_rfl
  | cons r rows ih =>
    obtain ⟨hr, hs⟩ := List.pairwise_cons.mp hs
    by_cases hb : b ≤ r.1
    · have hall : ∀ c, c ≤ r.1 → (r :: rows).filter (fun r => decide (c ≤ r.1)) = r :: rows := by
        intro c hc
        refine List.filter_eq_self.mpr fun r' hr' => decide_eq_true ?_
        rcases List.mem_cons.mp hr' with rfl | hr'
        · exact hc
        · exact hc.trans (hr r' hr').le
      have heq := (hall b hb).trans (hall a (hab.trans hb)).symm
      exact heq ▸ List.suffix_rfl
    · rw [List.filter_cons_of_neg (by simpa using hb)]
      refine (ih hs).trans ?_
      rw [List.filter_cons]
      split
      · exact List.suffix_cons ..
      · exact List.suffix_rfl

/-- All keys moved by the same amount. -/
def translate [AddGroup κ] [AddRightStrictMono κ] (c : κ) (t : KeyTable κ ρ) : KeyTable κ ρ where
  rows := t.rows.map fun r => (r.1 + c, r.2)
  sorted := by
    rw [List.pairwise_map]
    exact t.sorted.imp fun h => add_lt_add_left h c

theorem get?_translate [AddGroup κ] [AddRightStrictMono κ] (t : KeyTable κ ρ) (c k : κ) :
    (t.translate c).get? k = t.get? (k - c) := by
  refine Option.ext fun v => ?_
  rw [← mem_rows_iff, ← mem_rows_iff, translate, List.mem_map]
  constructor
  · rintro ⟨r, hr, heq⟩
    obtain ⟨rfl, rfl⟩ := Prod.mk.inj heq
    rwa [add_sub_cancel_right]
  · intro h
    exact ⟨_, h, by rw [sub_add_cancel]⟩

/-! ## Many rows at once -/

theorem get?_foldl_insertOrIgnore (rows : List (κ × ρ)) (t : KeyTable κ ρ) (k : κ) :
    (rows.foldl (fun t r => t.insertOrIgnore r.1 r.2) t).get? k =
      (t.get? k).or (rows.lookup k) := by
  induction rows generalizing t with
  | nil => simp
  | cons r rows ih =>
    rw [List.foldl_cons, ih, get?_insertOrIgnore, Option.or_assoc]
    by_cases hk : k = r.1
    · subst hk
      rw [if_pos rfl, lookup_self]
      rfl
    · rw [if_neg hk, lookup_of_ne hk, Option.none_or]

theorem get?_foldl_insertOrReplace (s t : KeyTable κ ρ) (k : κ) :
    (s.rows.foldl (fun t r => t.insertOrReplace r.1 r.2) t).get? k = (s.get? k).or (t.get? k) := by
  obtain ⟨rows, hs⟩ := s
  simp only [get?.eq_1 (⟨rows, hs⟩ : KeyTable κ ρ)]
  induction rows generalizing t with
  | nil => simp
  | cons r rows ih =>
    obtain ⟨hr, hs⟩ := List.pairwise_cons.mp hs
    rw [List.foldl_cons, ih _ hs, get?_insertOrReplace]
    by_cases hk : k = r.1
    · subst hk
      rw [lookup_of_lt hr, lookup_self, if_pos rfl]
      rfl
    · rw [if_neg hk, lookup_of_ne hk]

/-- The rows of another table written over the rows that are there. -/
def updateAll (s t : KeyTable κ ρ) : KeyTable κ ρ := s.rows.foldl (fun t r => t.update r.1 r.2) t

theorem get?_updateAll (s t : KeyTable κ ρ) (k : κ) :
    (s.updateAll t).get? k = (t.get? k).map fun v => (s.get? k).getD v := by
  obtain ⟨rows, hs⟩ := s
  simp only [updateAll, get?.eq_1 (⟨rows, hs⟩ : KeyTable κ ρ)]
  induction rows generalizing t with
  | nil => simp
  | cons r rows ih =>
    obtain ⟨hr, hs⟩ := List.pairwise_cons.mp hs
    rw [List.foldl_cons, ih _ hs, get?_update]
    by_cases hk : k = r.1
    · subst hk
      rw [lookup_of_lt hr, lookup_self, if_pos rfl, Option.map_map]
      rfl
    · rw [if_neg hk, lookup_of_ne hk]

end KeyTable
