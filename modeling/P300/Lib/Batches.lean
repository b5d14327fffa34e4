import Mathlib.Data.List.Induction
import Mathlib.Order.Lattice

/-!
# Batches

A loop over rows in order puts those with the same key into one bar: it adds to the current bar, and
begins a new one when the key changes. At the end there is one bar for each key of the rows, in
order, made of the rows of its key.
-/

/-- A bar of a key, the key that it carries, and how a row is added to it. -/
structure Batcher (α β κ : Type*) where
  key : α → κ
  time : β → κ
  start : κ → β
  add : β → α → β
  time_start (k : κ) : time (start k) = k
  time_add (b : β) (a : α) : time (add b a) = time b

namespace Batcher

variable {α β κ : Type*} [LinearOrder κ] (f : Batcher α β κ)

/-- The locals of the loop: the current bar, and the bars before it. -/
structure Walk (β : Type*) where
  cur : Option β := none
  out : List β := []

/-- The bars so far. -/
def Walk.bars (s : Walk β) : List β := s.out ++ s.cur.toList

def step (s : Walk β) (a : α) : Walk β :=
  match s.cur with
  | none => ⟨some (f.add (f.start (f.key a)) a), s.out⟩
  | some cur =>
    if f.time cur ≠ f.key a then ⟨some (f.add (f.start (f.key a)) a), s.out ++ [cur]⟩
    else ⟨some (f.add cur a), s.out⟩

/-- The bars of the rows. -/
def bars (l : List α) : List β := (l.foldl f.step {}).bars

/-- The bar of a key, made of its rows. -/
def batch (k : κ) (l : List α) : β := (l.filter fun a => f.key a = k).foldl f.add (f.start k)

variable {f} {s : Walk β} {l l' : List α} {a : α} {k : κ}

theorem batch_concat : f.batch k (l ++ [a]) =
    if f.key a = k then f.add (f.batch k l) a else f.batch k l := by
  rw [batch, List.filter_append]
  split
  · next h =>
    rw [List.filter_cons_of_pos (by simpa using h), List.filter_nil, List.foldl_append]
    rfl
  · next h =>
    rw [List.filter_cons_of_neg (by simpa using h), List.filter_nil, List.append_nil]
    rfl

theorem batch_of_not_mem (h : ∀ a ∈ l, f.key a ≠ k) : f.batch k l = f.start k := by
  rw [batch, List.filter_eq_nil_iff.mpr fun a ha => by simpa using h a ha]
  rfl

variable (f) in
/-- What the loop knows of the rows it has read. -/
structure Tracks (l : List α) (s : Walk β) : Prop where
  ascending : s.bars.Pairwise fun b b' => f.time b < f.time b'
  whole : ∀ b ∈ s.bars, b = f.batch (f.time b) l
  read : ∀ b ∈ s.bars, ∃ a ∈ l, f.key a = f.time b
  covered : ∀ a ∈ l, ∃ b ∈ s.bars, f.time b = f.key a
  nothing : s.cur = none → l = [] ∧ s.out = []

/-- After a row the current bar is the one of its key, and all bars before it stay as they are. -/
theorem Tracks.concat {out : List β} {cur : β} (htime : f.time cur = f.key a)
    (hcur : cur = f.add (f.batch (f.key a) l) a)
    (hout : out.Pairwise fun b b' => f.time b < f.time b') (hbefore : ∀ b ∈ out, f.time b < f.key a)
    (hwhole : ∀ b ∈ out, b = f.batch (f.time b) l) (hread : ∀ b ∈ out, ∃ a ∈ l, f.key a = f.time b)
    (hcovered : ∀ a ∈ l, ∃ b ∈ out ++ [cur], f.time b = f.key a) :
    f.Tracks (l ++ [a]) ⟨some cur, out⟩ := by
  constructor
  · refine List.pairwise_append.mpr ⟨hout, List.pairwise_singleton .., fun b hb => ?_⟩
    exact List.forall_mem_singleton.mpr (htime ▸ hbefore b hb)
  · refine List.forall_mem_append.mpr ⟨fun b hb => ?_, List.forall_mem_singleton.mpr ?_⟩
    · rw [batch_concat, if_neg (hbefore b hb).ne']
      exact hwhole b hb
    · rw [batch_concat, htime, if_pos rfl]
      exact hcur
  · refine List.forall_mem_append.mpr ⟨fun b hb => ?_, List.forall_mem_singleton.mpr ?_⟩
    · obtain ⟨a', ha', hkey⟩ := hread b hb
      exact ⟨a', List.mem_append_left _ ha', hkey⟩
    · exact ⟨a, List.mem_append_right _ List.mem_cons_self, htime.symm⟩
  · refine List.forall_mem_append.mpr ⟨hcovered, List.forall_mem_singleton.mpr ?_⟩
    exact ⟨cur, List.mem_append_right _ List.mem_cons_self, htime⟩
  · exact fun hnone => (Option.some_ne_none _ hnone).elim

theorem Tracks.step (H : f.Tracks l s) (hafter : ∀ a' ∈ l, f.key a' ≤ f.key a) :
    f.Tracks (l ++ [a]) (f.step s a) := by
  have hnew : ∀ cur, cur = f.add (f.start (f.key a)) a → f.time cur = f.key a := by
    rintro cur rfl
    rw [f.time_add, f.time_start]
  unfold Batcher.step
  cases hcur : s.cur with
  | none =>
    obtain ⟨rfl, hout⟩ := H.nothing hcur
    rw [hout]
    exact .concat (hnew _ rfl) rfl .nil (by simp) (by simp) (by simp) (by simp)
  | some cur =>
    have hbars : s.bars = s.out ++ [cur] := by rw [Walk.bars, hcur]; rfl
    have hmem : cur ∈ s.bars := hbars ▸ List.mem_append_right _ List.mem_cons_self
    have hout : ∀ b ∈ s.out, b ∈ s.bars := fun b hb => hbars ▸ List.mem_append_left _ hb
    obtain ⟨hasc, -, hlast⟩ := List.pairwise_append.mp (hbars ▸ H.ascending)
    have hlast : ∀ b ∈ s.out, f.time b < f.time cur := fun b hb => hlast b hb cur List.mem_cons_self
    have hle : f.time cur ≤ f.key a := by
      obtain ⟨a', ha', hkey⟩ := H.read cur hmem
      exact hkey ▸ hafter a' ha'
    dsimp only
    split
    · next hne =>
      -- the row begins a new bar
      have hlt : f.time cur < f.key a := lt_of_le_of_ne hle hne
      have hbefore : ∀ b ∈ s.bars, f.time b < f.key a := by
        rw [hbars]
        exact List.forall_mem_append.mpr
          ⟨fun b hb => (hlast b hb).trans hlt, List.forall_mem_singleton.mpr hlt⟩
      have hkeys : ∀ a' ∈ l, f.key a' ≠ f.key a := fun a' ha' heq => by
        obtain ⟨b, hb, htime⟩ := H.covered a' ha'
        exact (hbefore b hb).ne (htime.trans heq)
      rw [← hbars]
      refine .concat (hnew _ rfl) (by rw [batch_of_not_mem hkeys]) H.ascending hbefore
        H.whole H.read
        fun a' ha' => ?_
      obtain ⟨b, hb, htime⟩ := H.covered a' ha'
      exact ⟨b, List.mem_append_left _ hb, htime⟩
    · next heq =>
      -- the row is added to the current bar
      have heq : f.time cur = f.key a := not_not.mp heq
      have htime : f.time (f.add cur a) = f.key a := (f.time_add cur a).trans heq
      refine .concat htime (by rw [← heq, ← H.whole cur hmem]) hasc (heq ▸ hlast)
        (fun b hb => H.whole b (hout b hb)) (fun b hb => H.read b (hout b hb)) fun a' ha' => ?_
      obtain ⟨b, hb, hkey⟩ := H.covered a' ha'
      rcases List.mem_append.mp (hbars ▸ hb) with hb | hb
      · exact ⟨b, List.mem_append_left _ hb, hkey⟩
      · obtain rfl := List.mem_singleton.mp hb
        exact ⟨_, List.mem_append_right _ List.mem_cons_self, (f.time_add b a).trans hkey⟩

/-- The bars of rows in the order of their keys. -/
theorem tracks_foldl (hl : l.Pairwise fun a a' => f.key a ≤ f.key a') :
    f.Tracks l (l.foldl f.step {}) := by
  induction l using List.reverseRecOn with
  | nil => exact ⟨.nil, by simp [Walk.bars], by simp [Walk.bars], by simp, fun _ => ⟨rfl, rfl⟩⟩
  | append_singleton l a ih =>
    obtain ⟨hl, -, hafter⟩ := List.pairwise_append.mp hl
    rw [List.foldl_append]
    exact (ih hl).step fun a' ha' => hafter a' ha' a List.mem_cons_self

end Batcher
