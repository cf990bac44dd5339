import Mathlib

/-!
# Ordered maps

A finite map with keys of a linear order, as the list of its entries in strictly
ascending key order. This is what iterating over a `BTreeMap` shows, and two
maps with the same entries are equal.

* `get?_insert`, `get?_remove`, `get?_modify`: what each update does to a lookup.
* `ext_get?`: a map is determined by its lookups.
* `mem_entries_iff`: the entries are the graph of `get?`.
* `range?`: the entries of a half-open interval, `none` when the bounds are in
  the wrong order (the case in which `BTreeMap::range` panics).
-/

namespace Kubenyx.Common

/-- A map as its entries in strictly ascending key order. -/
structure OrdMap (K V : Type) [LinearOrder K] where
  entries : List (K × V)
  sorted : entries.Pairwise fun a b => a.1 < b.1

namespace OrdMap

variable {K V : Type} [LinearOrder K]

instance [DecidableEq V] : DecidableEq (OrdMap K V) := fun m n =>
  decidable_of_iff (m.entries = n.entries) (by cases m; cases n; simp)

theorem ext_entries {m n : OrdMap K V} (h : m.entries = n.entries) : m = n := by
  cases m; cases n; simp_all

/-! ## Operations -/

/-- The map without entries. -/
def empty : OrdMap K V := ⟨[], .nil⟩

/-- The value stored under `k`. -/
def get? (m : OrdMap K V) (k : K) : Option V :=
  (m.entries.find? fun e => e.1 = k).map Prod.snd

/-- Insertion into an ascending list of entries; an entry with the same key is
    replaced. -/
def insertEntry (k : K) (v : V) : List (K × V) → List (K × V)
  | [] => [(k, v)]
  | e :: es =>
    if k < e.1 then (k, v) :: e :: es
    else if k = e.1 then (k, v) :: es
    else e :: insertEntry k v es

theorem mem_insertEntry {k : K} {v : V} {a : K × V} {es : List (K × V)}
    (h : a ∈ insertEntry k v es) : a = (k, v) ∨ a ∈ es := by
  induction es with
  | nil => simpa [insertEntry] using h
  | cons e es ih =>
    rw [insertEntry] at h
    split_ifs at h with h1 h2
    · simpa using h
    · rcases List.mem_cons.mp h with h | h
      · exact Or.inl h
      · exact Or.inr (List.mem_cons_of_mem _ h)
    · rcases List.mem_cons.mp h with h | h
      · exact Or.inr (by simp [h])
      · rcases ih h with h | h
        · exact Or.inl h
        · exact Or.inr (List.mem_cons_of_mem _ h)

theorem insertEntry_sorted (k : K) (v : V) {es : List (K × V)}
    (h : es.Pairwise fun a b => a.1 < b.1) :
    (insertEntry k v es).Pairwise fun a b => a.1 < b.1 := by
  induction es with
  | nil => simp [insertEntry]
  | cons e es ih =>
    obtain ⟨he, hes⟩ := List.pairwise_cons.mp h
    rw [insertEntry]
    split_ifs with h1 h2
    · refine List.pairwise_cons.mpr ⟨?_, h⟩
      intro a ha
      rcases List.mem_cons.mp ha with rfl | ha
      · exact h1
      · exact h1.trans (he a ha)
    · exact List.pairwise_cons.mpr ⟨fun a ha => by simpa [h2] using he a ha, hes⟩
    · refine List.pairwise_cons.mpr ⟨?_, ih hes⟩
      intro a ha
      rcases mem_insertEntry ha with rfl | ha
      · exact lt_of_le_of_ne (not_lt.mp h1) (Ne.symm h2)
      · exact he a ha

/-- `m` with `v` stored under `k`. -/
def insert (m : OrdMap K V) (k : K) (v : V) : OrdMap K V :=
  ⟨insertEntry k v m.entries, insertEntry_sorted k v m.sorted⟩

/-- `m` without the key `k`. -/
def remove (m : OrdMap K V) (k : K) : OrdMap K V :=
  ⟨m.entries.filter fun e => e.1 ≠ k, m.sorted.filter _⟩

/-- `m` with the value under `k`, if there is one, replaced by its image under
    `f`: an update through `get_mut`. -/
def modify (m : OrdMap K V) (k : K) (f : V → V) : OrdMap K V where
  entries := m.entries.map fun e => if e.1 = k then (e.1, f e.2) else e
  sorted := by
    refine m.sorted.map _ ?_
    intro a b hab
    split_ifs <;> exact hab

/-- The keys in ascending order. -/
def keys (m : OrdMap K V) : List K := m.entries.map Prod.fst

/-- The values in ascending key order. -/
def values (m : OrdMap K V) : List V := m.entries.map Prod.snd

/-- The entries with key `≥ lo`. -/
def rangeFrom (m : OrdMap K V) (lo : K) : List (K × V) :=
  m.entries.filter fun e => lo ≤ e.1

/-- The entries with `lo ≤ key < hi`; there is no result when `lo > hi`. -/
def range? (m : OrdMap K V) (lo hi : K) : Option (List (K × V)) :=
  if lo ≤ hi then some (m.entries.filter fun e => lo ≤ e.1 ∧ e.1 < hi) else none

/-! ## Lookups -/

@[simp] theorem get?_empty (k : K) : (empty : OrdMap K V).get? k = none := rfl

/-- The entries are the graph of the lookup function. -/
theorem mem_entries_iff {m : OrdMap K V} {k : K} {v : V} :
    (k, v) ∈ m.entries ↔ m.get? k = some v := by
  obtain ⟨es, hs⟩ := m
  simp only [get?]
  induction es with
  | nil => simp
  | cons e es ih =>
    obtain ⟨k', v'⟩ := e
    obtain ⟨he, hes⟩ := List.pairwise_cons.mp hs
    rw [List.find?_cons, List.mem_cons]
    by_cases hk : k' = k
    · subst hk
      simp only [decide_true, Option.map_some, Option.some.injEq, Prod.mk.injEq, true_and]
      constructor
      · rintro (h | h)
        · exact h.symm
        · exact absurd (he _ h) (lt_irrefl _)
      · intro h
        exact Or.inl h.symm
    · simp only [hk, decide_false, Prod.mk.injEq, Ne.symm hk, false_and, false_or]
      exact ih hes

theorem mem_keys_iff {m : OrdMap K V} {k : K} : k ∈ m.keys ↔ (m.get? k).isSome := by
  rw [keys, List.mem_map, Option.isSome_iff_exists]
  constructor
  · rintro ⟨⟨k', v⟩, h, rfl⟩
    exact ⟨v, mem_entries_iff.mp h⟩
  · rintro ⟨v, h⟩
    exact ⟨(k, v), mem_entries_iff.mpr h, rfl⟩

theorem keys_sorted (m : OrdMap K V) : m.keys.Pairwise (· < ·) :=
  m.sorted.map _ fun _ _ h => h

theorem mem_values_iff {m : OrdMap K V} {v : V} : v ∈ m.values ↔ ∃ k, m.get? k = some v := by
  rw [values, List.mem_map]
  constructor
  · rintro ⟨⟨k, v'⟩, h, rfl⟩
    exact ⟨k, mem_entries_iff.mp h⟩
  · rintro ⟨k, h⟩
    exact ⟨(k, v), mem_entries_iff.mpr h, rfl⟩

/-- Two ascending lists of entries with the same members are equal. -/
theorem entries_eq_of_mem_iff {es fs : List (K × V)}
    (he : es.Pairwise fun a b => a.1 < b.1) (hf : fs.Pairwise fun a b => a.1 < b.1)
    (h : ∀ a, a ∈ es ↔ a ∈ fs) : es = fs := by
  have hn : ∀ {l : List (K × V)}, l.Pairwise (fun a b => a.1 < b.1) → l.Nodup :=
    fun hl => hl.imp fun hab => by rintro rfl; exact lt_irrefl _ hab
  refine ((List.perm_ext_iff_of_nodup (hn he) (hn hf)).mpr h).eq_of_pairwise ?_ he hf
  intro a b _ _ hab hba
  exact absurd hab (lt_asymm hba)

/-- A map is determined by its lookups. -/
theorem ext_get? {m n : OrdMap K V} (h : ∀ k, m.get? k = n.get? k) : m = n := by
  apply ext_entries
  apply entries_eq_of_mem_iff m.sorted n.sorted
  rintro ⟨k, v⟩
  rw [mem_entries_iff, mem_entries_iff, h]

theorem find?_insertEntry (k : K) (v : V) (k' : K) (es : List (K × V)) :
    (insertEntry k v es).find? (fun e => e.1 = k') =
      if k = k' then some (k, v) else es.find? fun e => e.1 = k' := by
  induction es with
  | nil => by_cases h : k = k' <;> simp [insertEntry, h]
  | cons e es ih =>
    rw [insertEntry]
    by_cases h : k = k'
    · subst h
      rw [if_pos rfl] at ih ⊢
      split_ifs with h1 h2
      · simp
      · simp
      · rw [List.find?_cons, ih]
        simp [Ne.symm h2]
    · rw [if_neg h] at ih ⊢
      split_ifs with h1 h2
      · simp [h]
      · simp [h, ← h2]
      · rw [List.find?_cons, List.find?_cons, ih]

theorem get?_insert (m : OrdMap K V) (k : K) (v : V) (k' : K) :
    (m.insert k v).get? k' = if k = k' then some v else m.get? k' := by
  simp only [get?, insert, find?_insertEntry]
  split_ifs <;> rfl

@[simp] theorem get?_insert_self (m : OrdMap K V) (k : K) (v : V) :
    (m.insert k v).get? k = some v := by
  rw [get?_insert, if_pos rfl]

theorem get?_remove (m : OrdMap K V) (k k' : K) :
    (m.remove k).get? k' = if k = k' then none else m.get? k' := by
  ext v
  rw [← mem_entries_iff, remove, List.mem_filter, mem_entries_iff]
  by_cases h : k = k'
  · simp [h]
  · simp [h, Ne.symm h]

@[simp] theorem get?_remove_self (m : OrdMap K V) (k : K) : (m.remove k).get? k = none := by
  rw [get?_remove, if_pos rfl]

theorem get?_modify (m : OrdMap K V) (k : K) (f : V → V) (k' : K) :
    (m.modify k f).get? k' = if k = k' then (m.get? k').map f else m.get? k' := by
  obtain ⟨es, hs⟩ := m
  simp only [get?, modify]
  clear hs
  induction es with
  | nil => simp
  | cons e es ih =>
    rw [List.map_cons, List.find?_cons, List.find?_cons]
    by_cases h1 : e.1 = k'
    · by_cases h2 : k = k'
      · simp [h1, h2]
      · simp [h1, h2, Ne.symm h2]
    · by_cases h2 : e.1 = k
      · simpa [h1, h2, h2 ▸ h1] using ih
      · simpa [h1, h2] using ih

/-! ## From a list -/

/-- The map of a list of entries; of several with one key the first counts. -/
def ofList (l : List (K × V)) : OrdMap K V := l.foldr (fun e m => m.insert e.1 e.2) empty

theorem insertEntry_perm {k : K} {v : V} {es : List (K × V)} (h : ∀ e ∈ es, e.1 ≠ k) :
    (insertEntry k v es).Perm ((k, v) :: es) := by
  induction es with
  | nil => exact .refl _
  | cons e es ih =>
    obtain ⟨he, hes⟩ := List.forall_mem_cons.mp h
    rw [insertEntry, if_neg (Ne.symm he)]
    split_ifs
    · exact .refl _
    · exact ((ih hes).cons e).trans (.swap _ _ _)

/-- Without a repeated key no entry is lost. -/
theorem ofList_perm {l : List (K × V)} (h : (l.map Prod.fst).Nodup) :
    (ofList l).entries.Perm l := by
  induction l with
  | nil => exact .refl _
  | cons e l ih =>
    rw [List.map_cons, List.nodup_cons] at h
    have hperm := ih h.2
    refine (insertEntry_perm ?_).trans (hperm.cons e)
    intro e' he' hkey
    exact h.1 (hkey ▸ List.mem_map_of_mem (hperm.subset he'))

end OrdMap

end Kubenyx.Common
