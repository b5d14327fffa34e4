import Mathlib.Data.List.Induction
import Mathlib.Data.List.Nodup

/-!
# Dictionaries in insertion order

A finite map that lists its entries in the order in which the keys came in: a new key goes to the
end, an old one keeps its place, and a key occurs once.
-/

/-- The entries in insertion order; no key twice. -/
structure Dict (κ ν : Type*) where
  entries : List (κ × ν)
  nodup : (entries.map Prod.fst).Nodup

namespace Dict

variable {κ ν : Type*}

def empty : Dict κ ν := ⟨[], .nil⟩

def keys (d : Dict κ ν) : List κ := d.entries.map Prod.fst

/-- The same keys with other values. -/
def mapValues {ν' : Type*} (f : κ → ν → ν') (d : Dict κ ν) : Dict κ ν' where
  entries := d.entries.map fun e => (e.1, f e.1 e.2)
  nodup := by
    rw [List.map_map]
    exact d.nodup

variable [DecidableEq κ]

def get? (d : Dict κ ν) (k : κ) : Option ν := d.entries.lookup k

/-- The entries with the value of the key `k` replaced. -/
def replaced (k : κ) (v : ν) (entries : List (κ × ν)) : List (κ × ν) :=
  entries.map fun e => if e.1 = k then (k, v) else e

theorem replaced_keys (k : κ) (v : ν) (entries : List (κ × ν)) :
    (replaced k v entries).map Prod.fst = entries.map Prod.fst := by
  rw [replaced, List.map_map]
  refine List.map_congr_left fun e _ => ?_
  rw [Function.comp_apply]
  split
  · next h => exact h.symm
  · rfl

/-- `d[k] = v` -/
def set (d : Dict κ ν) (k : κ) (v : ν) : Dict κ ν :=
  if h : k ∈ d.keys then ⟨replaced k v d.entries, by rw [replaced_keys]; exact d.nodup⟩
  else ⟨d.entries ++ [(k, v)], by
    rw [List.map_append]
    exact d.nodup.append (List.nodup_singleton k) (List.disjoint_singleton.mpr h)⟩

/-- `d.pop(k, None)` -/
def erase (d : Dict κ ν) (k : κ) : Dict κ ν where
  entries := d.entries.filter fun e => e.1 ≠ k
  nodup := d.nodup.sublist (List.filter_sublist.map _)

@[simp] theorem get?_empty (k : κ) : (empty : Dict κ ν).get? k = none := rfl

theorem lookup_replaced_self {k : κ} {entries : List (κ × ν)} (h : k ∈ entries.map Prod.fst)
    (v : ν) : (replaced k v entries).lookup k = some v := by
  induction entries with
  | nil => cases h
  | cons e entries ih =>
    rw [replaced, List.map_cons, ← replaced]
    split
    · exact List.lookup_cons_self
    · next he =>
      have hk : k ∈ entries.map Prod.fst := (List.mem_cons.mp h).resolve_left (Ne.symm he)
      rw [List.lookup_cons, beq_false_of_ne (Ne.symm he)]
      exact ih hk

theorem lookup_replaced_of_ne {k k' : κ} (h : k' ≠ k) (v : ν) (entries : List (κ × ν)) :
    (replaced k v entries).lookup k' = entries.lookup k' := by
  induction entries with
  | nil => rfl
  | cons e entries ih =>
    rw [replaced, List.map_cons, ← replaced]
    split
    · next he => rw [List.lookup_cons, List.lookup_cons, he, beq_false_of_ne h, ih]
    · rw [List.lookup_cons, List.lookup_cons, ih]

theorem lookup_filter_of_ne {k k' : κ} (h : k' ≠ k) (entries : List (κ × ν)) :
    (entries.filter fun e => e.1 ≠ k).lookup k' = entries.lookup k' := by
  induction entries with
  | nil => rfl
  | cons e entries ih =>
    rw [List.filter_cons]
    split
    · rw [List.lookup_cons, List.lookup_cons, ih]
    · next he =>
      have hek : e.1 = k := by simpa using he
      rw [ih, List.lookup_cons, hek, beq_false_of_ne h]

theorem get?_set (d : Dict κ ν) (k k' : κ) (v : ν) :
    (d.set k v).get? k' = if k' = k then some v else d.get? k' := by
  rw [set]
  split
  · next h =>
    by_cases hk : k' = k
    · rw [if_pos hk, hk]
      exact lookup_replaced_self h v
    · rw [if_neg hk]
      exact lookup_replaced_of_ne hk v d.entries
  · next h =>
    rw [get?, List.lookup_append, List.lookup_cons, List.lookup_nil]
    by_cases hk : k' = k
    · have hnone : d.entries.lookup k = none :=
        List.lookup_eq_none_iff.mpr fun e he => bne_iff_ne.mpr fun hb =>
          h (hb ▸ List.mem_map_of_mem he)
      rw [hk, if_pos rfl, hnone, beq_self_eq_true]
      rfl
    · rw [if_neg hk, beq_false_of_ne hk, Option.or_none, get?]

theorem get?_erase (d : Dict κ ν) (k k' : κ) :
    (d.erase k).get? k' = if k' = k then none else d.get? k' := by
  split
  · next h =>
    refine List.lookup_eq_none_iff.mpr fun e he => bne_iff_ne.mpr fun hb => ?_
    have hne : e.1 ≠ k := of_decide_eq_true (List.mem_filter.mp he).2
    exact hne (hb.symm.trans h)
  · next h => exact lookup_filter_of_ne h d.entries

theorem get?_foldl_entries {ν' : Type*} {p : κ × ν' → Prop} [DecidablePred p] {g : κ × ν' → ν}
    {entries : List (κ × ν')} (hnodup : (entries.map Prod.fst).Nodup) (init : Dict κ ν) (k : κ) :
    (entries.foldl (fun d e => if p e then d.set e.1 (g e) else d) init).get? k =
      ((entries.lookup k).filter fun v => p (k, v)).elim (init.get? k) fun v =>
        some (g (k, v)) := by
  induction entries generalizing init with
  | nil => rfl
  | cons e entries ih =>
    obtain ⟨a, b⟩ := e
    rw [List.map_cons, List.nodup_cons] at hnodup
    obtain ⟨hnew, hnodup⟩ := hnodup
    rw [List.foldl_cons, ih hnodup, List.lookup_cons]
    by_cases hk : k = a
    · subst hk
      have hnone : entries.lookup k = none :=
        List.lookup_eq_none_iff.mpr fun e' he' => bne_iff_ne.mpr fun hb =>
          hnew (List.mem_map.mpr ⟨e', he', hb.symm⟩)
      rw [hnone, beq_self_eq_true]
      by_cases hp : p (k, b)
      · simp [hp, get?_set, Option.filter]
      · simp [hp, Option.filter]
    · rw [beq_false_of_ne hk]
      congr 1
      split
      · rw [get?_set, if_neg hk]
      · rfl

theorem mem_keys_iff (d : Dict κ ν) (k : κ) : k ∈ d.keys ↔ (d.get? k).isSome := by
  rw [keys, get?, ← not_iff_not, Option.not_isSome_iff_eq_none, List.lookup_eq_none_iff,
    List.mem_map]
  constructor
  · exact fun h e he => bne_iff_ne.mpr fun hk => h ⟨e, he, hk.symm⟩
  · rintro h ⟨e, he, rfl⟩
    exact absurd rfl (bne_iff_ne.mp (h e he))

theorem mem_entries_iff (d : Dict κ ν) {k : κ} {v : ν} :
    (k, v) ∈ d.entries ↔ d.get? k = some v := by
  constructor
  · intro h
    obtain ⟨before, after, hd⟩ := List.append_of_mem h
    have hnodup := d.nodup
    rw [hd, List.map_append, List.map_cons] at hnodup
    refine List.lookup_eq_some_iff.mpr ⟨before, after, hd, fun e he => bne_iff_ne.mpr ?_⟩
    rintro rfl
    exact List.disjoint_of_nodup_append hnodup (List.mem_map_of_mem he) List.mem_cons_self
  · intro h
    obtain ⟨before, after, hd, _⟩ := List.lookup_eq_some_iff.mp h
    rw [hd]
    exact List.mem_append_right _ List.mem_cons_self

/-- A dictionary updated from some entries of another one. -/
theorem get?_foldl_set {ν' : Type*} {p : κ × ν' → Prop} [DecidablePred p] {g : κ × ν' → ν}
    (d' : Dict κ ν') (init : Dict κ ν) (k : κ) :
    (d'.entries.foldl (fun d e => if p e then d.set e.1 (g e) else d) init).get? k =
      ((d'.get? k).filter fun v => p (k, v)).elim (init.get? k) fun v => some (g (k, v)) :=
  get?_foldl_entries d'.nodup init k

/-! ## Many keys at once -/

/-- The rows in their order, each replacing the one with its key. -/
def upsert (d : Dict κ ν) (rows : List (κ × ν)) : Dict κ ν :=
  rows.foldl (fun d r => d.set r.1 r.2) d

theorem get?_upsert_map (d : Dict κ ν) (f : κ → ν) (ks : List κ) (k : κ) :
    (d.upsert (ks.map fun k => (k, f k))).get? k = if k ∈ ks then some (f k) else d.get? k := by
  induction ks generalizing d with
  | nil => rfl
  | cons a ks ih =>
    rw [upsert, List.map_cons, List.foldl_cons, ← upsert, ih, get?_set]
    by_cases hk : k ∈ ks
    · rw [if_pos hk, if_pos (List.mem_cons_of_mem a hk)]
    · by_cases ha : k = a
      · subst ha
        rw [if_neg hk, if_pos rfl, if_pos List.mem_cons_self]
      · rw [if_neg hk, if_neg ha, if_neg (by simp [hk, ha])]

theorem get?_upsert_of_not_mem {rows : List (κ × ν)} {k : κ} (d : Dict κ ν)
    (hk : k ∉ rows.map Prod.fst) : (d.upsert rows).get? k = d.get? k := by
  induction rows generalizing d with
  | nil => rfl
  | cons r rows ih =>
    rw [List.map_cons, List.mem_cons, not_or] at hk
    rw [upsert, List.foldl_cons, ← upsert, ih _ hk.2, get?_set, if_neg hk.1]

theorem get?_upsert_of_mem {rows : List (κ × ν)} {k : κ} {v : ν} (d : Dict κ ν)
    (hnodup : (rows.map Prod.fst).Nodup) (hmem : (k, v) ∈ rows) :
    (d.upsert rows).get? k = some v := by
  induction rows generalizing d with
  | nil => cases hmem
  | cons r rows ih =>
    obtain ⟨hnew, hnodup⟩ := List.nodup_cons.mp hnodup
    rw [upsert, List.foldl_cons, ← upsert]
    rcases List.mem_cons.mp hmem with rfl | hmem
    · rw [get?_upsert_of_not_mem _ hnew, get?_set, if_pos rfl]
    · exact ih _ hnodup hmem

/-- The last row with a key. -/
theorem get?_upsert (d : Dict κ ν) (rows : List (κ × ν)) (k : κ) :
    (d.upsert rows).get? k = ((rows.filter fun r => r.1 = k).getLast?.map Prod.snd).or
      (d.get? k) := by
  induction rows using List.reverseRecOn with
  | nil => rfl
  | append_singleton rows r ih =>
    rw [upsert, List.foldl_append, List.foldl_cons, List.foldl_nil, ← upsert, get?_set,
      List.filter_append]
    by_cases hk : k = r.1
    · have hlast : [r].filter (fun r => decide (r.1 = k)) = [r] := by simp [hk]
      rw [if_pos hk, hlast, List.getLast?_concat]
      rfl
    · have hlast : [r].filter (fun r => decide (r.1 = k)) = [] := by simpa using Ne.symm hk
      rw [if_neg hk, ih, hlast, List.append_nil]

/-- `d.update(d')` -/
theorem get?_upsert_entries (d d' : Dict κ ν) (k : κ) :
    (d.upsert d'.entries).get? k = (d'.get? k).or (d.get? k) := by
  cases hk : d'.get? k with
  | none =>
    refine get?_upsert_of_not_mem d fun hmem => ?_
    have hsome := (d'.mem_keys_iff k).mp hmem
    rw [hk] at hsome
    cases hsome
  | some v => exact get?_upsert_of_mem d d'.nodup (d'.mem_entries_iff.mpr hk)

/-- Rows of which no two give a key different values. -/
theorem get?_upsert_iff {rows : List (κ × ν)}
    (hfun : ∀ k v v', (k, v) ∈ rows → (k, v') ∈ rows → v = v') {k : κ} {v : ν} :
    ((empty : Dict κ ν).upsert rows).get? k = some v ↔ (k, v) ∈ rows := by
  induction rows using List.reverseRecOn with
  | nil => simp [upsert]
  | append_singleton rows r ih =>
    have hrows := ih fun k v v' h h' =>
      hfun k v v' (List.mem_append_left _ h) (List.mem_append_left _ h')
    rw [upsert, List.foldl_append, List.foldl_cons, List.foldl_nil, ← upsert, get?_set]
    split
    · next hk =>
      subst hk
      refine ⟨fun h => ?_, fun h => ?_⟩
      · cases h
        exact List.mem_append_right _ (List.mem_singleton_self r)
      · rw [hfun r.1 v r.2 h (List.mem_append_right _ (List.mem_singleton_self r))]
    · next hk =>
      rw [hrows, List.mem_append, List.mem_singleton, or_iff_left]
      rintro rfl
      exact hk rfl

/-! ## Filled by a loop -/

section Loop

variable {ε α : Type*} {key : α → κ} {f : α → Except ε ν} {l : List α} {init d : Dict κ ν}

/-- The loop `for a in l: d[key(a)] = f(a)`. -/
def fill (key : α → κ) (f : α → Except ε ν) (init : Dict κ ν) (l : List α) : Except ε (Dict κ ν) :=
  l.foldlM (fun d a => (f a).map fun v => d.set (key a) v) init

theorem fill_cons {a : α} (h : fill key f init (a :: l) = .ok d) :
    ∃ v, f a = .ok v ∧ fill key f (init.set (key a) v) l = .ok d := by
  rw [fill, List.foldlM_cons] at h
  cases hf : f a with
  | error e =>
    rw [hf] at h
    cases h
  | ok v =>
    rw [hf] at h
    exact ⟨v, rfl, h⟩

theorem get?_fill_of_not_mem {k : κ} (hk : k ∉ l.map key) (h : fill key f init l = .ok d) :
    d.get? k = init.get? k := by
  induction l generalizing init with
  | nil =>
    cases h
    rfl
  | cons a l ih =>
    rw [List.map_cons, List.mem_cons, not_or] at hk
    obtain ⟨v, _, h⟩ := fill_cons h
    rw [ih hk.2 h, get?_set, if_neg hk.1]

theorem get?_fill {a : α} (hkeys : (l.map key).Nodup) (ha : a ∈ l) (h : fill key f init l = .ok d) :
    ∃ v, f a = .ok v ∧ d.get? (key a) = some v := by
  induction l generalizing init with
  | nil => cases ha
  | cons b l ih =>
    rw [List.map_cons, List.nodup_cons] at hkeys
    obtain ⟨v, hv, h⟩ := fill_cons h
    rcases List.mem_cons.mp ha with rfl | ha
    · exact ⟨v, hv, by rw [get?_fill_of_not_mem hkeys.1 h, get?_set, if_pos rfl]⟩
    · exact ih hkeys.2 ha h

theorem fill_ok (hf : ∀ a ∈ l, ∃ v, f a = .ok v) (init : Dict κ ν) :
    ∃ d, fill key f init l = .ok d := by
  induction l generalizing init with
  | nil => exact ⟨init, rfl⟩
  | cons a l ih =>
    obtain ⟨v, hv⟩ := hf a List.mem_cons_self
    obtain ⟨d, hd⟩ := ih (fun a' ha' => hf a' (List.mem_cons_of_mem a ha')) (init.set (key a) v)
    refine ⟨d, ?_⟩
    rw [fill, List.foldlM_cons, hv]
    exact hd

end Loop

end Dict
