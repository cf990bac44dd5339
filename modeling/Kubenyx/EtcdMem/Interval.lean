import Kubenyx.EtcdMem.Svc

/-!
# Key intervals

`range_kvs`, `delete_range` and `WatchHandle::matches` all read a key and a
`range_end` as an interval of keys. The first two walk the map, the third tests
a single key.

* `interval_eq`: the walk of the map yields exactly the entries whose key passes
  the test, in key order, and panics exactly when the bounds are not `Ordered` and
  the map has held a key.
-/

namespace Kubenyx.EtcdMem

open Kubenyx.Common

/-- The key range check of `WatchHandle::matches` (svc.rs:124-130). -/
def inInterval (key rangeEnd k : Bytes) : Bool :=
  if rangeEnd = [] then k = key
  else if rangeEnd = Store.openEnd then key ≤ k
  else key ≤ k ∧ k < rangeEnd

/-- The bounds for which `BTreeMap::range` is called with `start ≤ end`, or not
    called at all. -/
def Ordered (key rangeEnd : Bytes) : Prop :=
  rangeEnd = [] ∨ rangeEnd = Store.openEnd ∨ key ≤ rangeEnd

instance (key rangeEnd : Bytes) : Decidable (Ordered key rangeEnd) :=
  inferInstanceAs (Decidable (_ ∨ _ ∨ _))

theorem ordered_nil (key : Bytes) : Ordered key [] := Or.inl rfl

/-- Bounds in the wrong order have no key between them. -/
theorem ordered_of_inInterval {key rangeEnd k : Bytes} (h : inInterval key rangeEnd k = true) :
    Ordered key rangeEnd := by
  unfold inInterval at h
  unfold Ordered
  split_ifs at h with h1 h2
  · exact Or.inl h1
  · exact Or.inr (Or.inl h2)
  · have hbetween : key ≤ k ∧ k < rangeEnd := of_decide_eq_true h
    exact Or.inr (Or.inr (hbetween.1.trans hbetween.2.le))

@[simp] theorem inInterval_nil (key k : Bytes) : inInterval key [] k = decide (k = key) := by
  simp [inInterval]

namespace Store

/-- A single key read as an interval. -/
theorem filter_key_eq (m : OrdMap Bytes Kv) (key : Bytes) :
    m.entries.filter (fun e => decide (e.1 = key)) =
      (m.get? key).toList.map fun kv => (key, kv) := by
  apply OrdMap.entries_eq_of_mem_iff (m.sorted.filter _)
  · cases m.get? key <;> simp
  · rintro ⟨k, kv⟩
    rw [List.mem_filter, OrdMap.mem_entries_iff]
    simp only [decide_eq_true_eq, List.mem_map, Option.mem_toList, Prod.mk.injEq]
    constructor
    · rintro ⟨h, rfl⟩
      exact ⟨kv, h, rfl, rfl⟩
    · rintro ⟨kv', h, rfl, rfl⟩
      exact ⟨h, rfl⟩

/-- The store can walk the bounds: they are ordered, or the map has never held a key, and then
    there is nothing between any bounds. -/
def Accepts (s : Store) (key rangeEnd : Bytes) : Prop := Ordered key rangeEnd ∨ s.rooted = false

instance (s : Store) (key rangeEnd : Bytes) : Decidable (s.Accepts key rangeEnd) :=
  inferInstanceAs (Decidable (_ ∨ _))

theorem filter_of_not_ordered (m : OrdMap Bytes Kv) {key rangeEnd : Bytes}
    (h : ¬ Ordered key rangeEnd) :
    m.entries.filter (fun e => inInterval key rangeEnd e.1) = [] :=
  List.filter_eq_nil_iff.mpr fun _ _ hin => h (ordered_of_inInterval hin)

theorem interval_of_ordered {s : Store} {key rangeEnd : Bytes} (h : Ordered key rangeEnd) :
    s.interval key rangeEnd =
      .ok (s.kvs.entries.filter fun e => inInterval key rangeEnd e.1) := by
  unfold interval inInterval
  by_cases h1 : rangeEnd = []
  · simp [h1, filter_key_eq]
  · by_cases h2 : rangeEnd = openEnd
    · simp [h2, openEnd, OrdMap.rangeFrom]
    · have hle : key ≤ rangeEnd := (h.resolve_left h1).resolve_left h2
      simp [h1, h2, hle, OrdMap.range?]

theorem interval_of_not_ordered {s : Store} {key rangeEnd : Bytes} (h : ¬ Ordered key rangeEnd) :
    s.interval key rangeEnd = if s.rooted then .error .rangeStartAfterEnd else .ok [] := by
  unfold Ordered at h
  push Not at h
  unfold interval
  rw [if_neg h.1, if_neg h.2.1, OrdMap.range?, if_neg (not_le.mpr h.2.2)]

theorem interval_eq (s : Store) (key rangeEnd : Bytes) :
    s.interval key rangeEnd =
      if s.Accepts key rangeEnd then
        .ok (s.kvs.entries.filter fun e => inInterval key rangeEnd e.1)
      else .error .rangeStartAfterEnd := by
  by_cases ho : Ordered key rangeEnd
  · rw [interval_of_ordered ho, if_pos (show s.Accepts key rangeEnd from Or.inl ho)]
  · rw [interval_of_not_ordered ho, filter_of_not_ordered s.kvs ho]
    cases hr : s.rooted with
    | false => rw [if_pos (show s.Accepts key rangeEnd from Or.inr hr), if_neg Bool.false_ne_true]
    | true => rw [if_neg (show ¬ s.Accepts key rangeEnd by simp [Accepts, ho, hr]), if_pos rfl]

/-- The keys that `delete_range` removes. -/
def selected (s : Store) (key rangeEnd : Bytes) : List Bytes :=
  s.kvs.keys.filter fun k => inInterval key rangeEnd k

theorem map_fst_filter_interval (s : Store) (key rangeEnd : Bytes) :
    (s.kvs.entries.filter fun e => inInterval key rangeEnd e.1).map Prod.fst =
      s.selected key rangeEnd := by
  rw [selected, OrdMap.keys, List.filter_map]
  rfl

theorem mem_selected {s : Store} {key rangeEnd k : Bytes} :
    k ∈ s.selected key rangeEnd ↔ (s.kvs.get? k).isSome ∧ inInterval key rangeEnd k = true := by
  rw [selected, List.mem_filter, OrdMap.mem_keys_iff]

theorem selected_nodup (s : Store) (key rangeEnd : Bytes) : (s.selected key rangeEnd).Nodup :=
  (s.kvs.keys_sorted.imp fun h => ne_of_lt h).filter _

/-- `range_kvs` on bounds that the store accepts. -/
theorem rangeKvs_of_accepts {s : Store} {r : RangeRequest} (h : s.Accepts r.key r.rangeEnd) :
    s.rangeKvs r = .ok (page r.limit
      (((s.kvs.entries.filter fun e => inInterval r.key r.rangeEnd e.1).map Prod.snd).filter
        (rangeFilter r (s.atRev r)))) := by
  rw [rangeKvs, interval_eq, if_pos h]

theorem rangeKvs_of_ordered {s : Store} {r : RangeRequest} (h : Ordered r.key r.rangeEnd) :
    s.rangeKvs r = .ok (page r.limit
      (((s.kvs.entries.filter fun e => inInterval r.key r.rangeEnd e.1).map Prod.snd).filter
        (rangeFilter r (s.atRev r)))) :=
  rangeKvs_of_accepts (Or.inl h)

theorem rangeKvs_of_not_accepts {s : Store} {r : RangeRequest} (h : ¬ s.Accepts r.key r.rangeEnd) :
    s.rangeKvs r = .error .rangeStartAfterEnd := by
  rw [rangeKvs, interval_eq, if_neg h]

/-- `range_kvs` on bounds in the wrong order. -/
theorem rangeKvs_of_not_ordered {s : Store} {r : RangeRequest} (h : ¬ Ordered r.key r.rangeEnd) :
    s.rangeKvs r =
      if s.rooted then .error .rangeStartAfterEnd else .ok (page r.limit []) := by
  rw [rangeKvs, interval_of_not_ordered h]
  cases s.rooted <;> rfl

theorem rangeResponse_of_not_accepts {s : Store} {r : RangeRequest}
    (h : ¬ s.Accepts r.key r.rangeEnd) : s.rangeResponse r = .error .rangeStartAfterEnd := by
  rw [rangeResponse, rangeKvs_of_not_accepts h]

theorem rangeResponse_isOk (s : Store) (r : RangeRequest) :
    (∃ resp, s.rangeResponse r = .ok resp) ↔ s.Accepts r.key r.rangeEnd := by
  by_cases h : s.Accepts r.key r.rangeEnd
  · simp [rangeResponse, rangeKvs_of_accepts h, h]
  · simp [rangeResponse_of_not_accepts h, h]

/-- The store after the loop of a `delete_range` that found `keys`. -/
def deleteKeys (s : Store) (keys : List Bytes) : Store :=
  let st := keys.foldl (deleteBody (s.revision + 1) false) ⟨s.kvs, s.leases, [], []⟩
  emit { s with revision := s.revision + 1, kvs := st.kvs, leases := st.leases }
    (s.revision + 1) st.events

/-- Asking for the previous values does not change what the loop does to the
    store. -/
theorem deleteBody_foldl_want (rev : ℤ) (want : Bool) (keys : List Bytes)
    (kvs : OrdMap Bytes Kv) (leases : OrdMap ℤ LeaseEntry) (prevKvs prevKvs' : List Kv)
    (events : List StoredEvent) :
    let st := keys.foldl (deleteBody rev want) ⟨kvs, leases, prevKvs, events⟩
    let st' := keys.foldl (deleteBody rev false) ⟨kvs, leases, prevKvs', events⟩
    st.kvs = st'.kvs ∧ st.leases = st'.leases ∧ st.events = st'.events := by
  induction keys generalizing kvs leases prevKvs prevKvs' events with
  | nil => exact ⟨rfl, rfl, rfl⟩
  | cons k keys ih =>
    simp only [List.foldl_cons, deleteBody]
    cases kvs.get? k with
    | none => exact ih kvs leases prevKvs prevKvs' events
    | some old => exact ih _ _ _ _ _

theorem deleteRange_of_not_accepts {s : Store} {key rangeEnd : Bytes}
    (h : ¬ s.Accepts key rangeEnd) (want : Bool) :
    s.deleteRange key rangeEnd want = (.error .rangeStartAfterEnd, s) := by
  rw [deleteRange, interval_eq, if_neg h]

/-- What `delete_range` does to the store. -/
theorem deleteRange_store (s : Store) (key rangeEnd : Bytes) (want : Bool) :
    (s.deleteRange key rangeEnd want).2 =
      if Ordered key rangeEnd ∧ s.selected key rangeEnd ≠ [] then
        s.deleteKeys (s.selected key rangeEnd)
      else s := by
  by_cases h : Ordered key rangeEnd
  · simp only [deleteRange, interval_of_ordered h, map_fst_filter_interval, h, true_and]
    by_cases hk : s.selected key rangeEnd = []
    · simp [hk]
    · obtain ⟨h1, h2, h3⟩ := deleteBody_foldl_want (s.revision + 1) want
        (s.selected key rangeEnd) s.kvs s.leases [] [] []
      simp only [hk, if_false, ne_eq, not_false_eq_true, if_true, deleteKeys, h1, h2, h3]
  · cases hr : s.rooted <;> simp [deleteRange, interval_of_not_ordered h, h, hr]

/-- What removing one key and taking it off its lease preserves, `delete_range`
    preserves. -/
theorem deleteRange_invariant {P : OrdMap Bytes Kv → OrdMap ℤ LeaseEntry → Prop}
    (hstep : ∀ kvs leases k old, kvs.get? k = some old → P kvs leases →
      P (kvs.remove k) (deregister leases old.lease k))
    {s : Store} (h : P s.kvs s.leases) (key rangeEnd : Bytes) (want : Bool) :
    P (s.deleteRange key rangeEnd want).2.kvs (s.deleteRange key rangeEnd want).2.leases := by
  have hloop : ∀ (keys : List Bytes) (st : DeleteLoop), P st.kvs st.leases →
      P (keys.foldl (deleteBody (s.revision + 1) false) st).kvs
        (keys.foldl (deleteBody (s.revision + 1) false) st).leases := by
    intro keys
    induction keys with
    | nil => exact fun st hst => hst
    | cons k keys ih =>
      intro st hst
      refine ih _ ?_
      unfold deleteBody
      cases hk : st.kvs.get? k with
      | none => exact hst
      | some old => exact hstep st.kvs st.leases k old hk hst
  rw [deleteRange_store]
  split_ifs
  · exact hloop (s.selected key rangeEnd) ⟨s.kvs, s.leases, [], []⟩ h
  · exact h

/-- The loop removes exactly the keys it walks. -/
theorem deleteBody_foldl_get? (rev : ℤ) (want : Bool) (keys : List Bytes) (st : DeleteLoop)
    (k : Bytes) :
    (keys.foldl (deleteBody rev want) st).kvs.get? k =
      if k ∈ keys then none else st.kvs.get? k := by
  induction keys generalizing st with
  | nil => simp
  | cons k' keys ih =>
    rw [List.foldl_cons, ih]
    by_cases hk : k ∈ keys
    · simp [hk]
    · rw [if_neg hk, deleteBody]
      by_cases hkk : k = k'
      · subst hkk
        cases hget : st.kvs.get? k with
        | none => simp [hget]
        | some old => simp [OrdMap.get?_remove_self]
      · rw [if_neg (by simp [hk, hkk])]
        cases st.kvs.get? k' with
        | none => rfl
        | some old => exact (OrdMap.get?_remove ..).trans (if_neg (Ne.symm hkk))

/-- What `delete_range` leaves under a key. -/
theorem deleteRange_get? (s : Store) (key rangeEnd : Bytes) (want : Bool) (k : Bytes) :
    (s.deleteRange key rangeEnd want).2.kvs.get? k =
      if Ordered key rangeEnd ∧ inInterval key rangeEnd k = true then none
      else s.kvs.get? k := by
  rw [deleteRange_store]
  by_cases ho : Ordered key rangeEnd
  · by_cases hsel : s.selected key rangeEnd = []
    · have hk : k ∉ s.selected key rangeEnd := by simp [hsel]
      rw [if_neg (by simp [hsel])]
      rw [mem_selected] at hk
      split_ifs with h
      · simpa [h.2] using hk
      · rfl
    · rw [if_pos ⟨ho, hsel⟩, deleteKeys]
      refine (deleteBody_foldl_get? _ _ _ _ k).trans ?_
      simp only [mem_selected, ho, true_and]
      cases hget : s.kvs.get? k <;> simp
  · simp [ho]

theorem deleteRange_isOk (s : Store) (key rangeEnd : Bytes) (want : Bool) :
    (∃ resp, (s.deleteRange key rangeEnd want).1 = .ok resp) ↔ s.Accepts key rangeEnd := by
  by_cases h : s.Accepts key rangeEnd
  · rw [deleteRange, interval_eq, if_pos h]
    dsimp only
    split_ifs <;> exact iff_of_true ⟨_, rfl⟩ h
  · simp [deleteRange_of_not_accepts h, h]

/-- A `delete_range` of a single key never panics. -/
theorem deleteRange_single_ok (s : Store) (k : Bytes) :
    ∃ resp, (s.deleteRange k [] false).1 = .ok resp :=
  (deleteRange_isOk s k [] false).mpr (Or.inl (ordered_nil k))

end Store

end Kubenyx.EtcdMem
