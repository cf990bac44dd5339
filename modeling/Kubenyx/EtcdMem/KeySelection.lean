import Kubenyx.EtcdMem.Watch

/-!
# One interval for Range, DeleteRange and Watch

`range_kvs` and `delete_range` walk the map between two bounds, a watch tests the
key of every event. A client lists an interval and then watches it, so the three
must mean the same keys.

* `selectedKvs`: the entries under the keys of an interval, in key order.
* `range_delete_watch_agree`: in every reachable state the range returns these
  entries, the watch lets through exactly the events of their keys, and the
  deletion removes them and nothing else.
-/

namespace Kubenyx.EtcdMem

open Kubenyx.Common

/-- A watch without filters looks at the key only, whatever the event. -/
theorem WatchHandle.matches_of_filter_eq_zero {h : WatchHandle} (hf : h.filter = 0)
    (evType : EventType) (kv : Kv) :
    h.matches evType kv = inInterval h.key h.rangeEnd kv.key := by
  unfold WatchHandle.matches
  simp [hf]

namespace Store

/-- The entries under the keys of an interval, in key order. -/
def selectedKvs (s : Store) (key rangeEnd : Bytes) : List Kv :=
  (s.kvs.entries.filter fun e => inInterval key rangeEnd e.1).map Prod.snd

/-- The entries of a reachable store know their keys. -/
theorem Reachable.map_key_selectedKvs {s : Store} (hs : s.Reachable) (key rangeEnd : Bytes) :
    (s.selectedKvs key rangeEnd).map Kv.key = s.selected key rangeEnd := by
  rw [selectedKvs, List.map_map, ← map_fst_filter_interval]
  apply List.map_congr_left
  rintro ⟨k, kv⟩ hmem
  have hget : s.kvs.get? k = some kv := OrdMap.mem_entries_iff.mp (List.mem_filter.mp hmem).1
  exact (hs.entry hget).1

theorem Reachable.mem_selectedKvs {s : Store} (hs : s.Reachable) {key rangeEnd : Bytes} {kv : Kv} :
    kv ∈ s.selectedKvs key rangeEnd ↔
      s.kvs.get? kv.key = some kv ∧ inInterval key rangeEnd kv.key = true := by
  simp only [selectedKvs, List.mem_map, List.mem_filter, Prod.exists, OrdMap.mem_entries_iff]
  constructor
  · rintro ⟨k, kv', ⟨hget, hin⟩, rfl⟩
    obtain rfl : kv'.key = k := (hs.entry hget).1
    exact ⟨hget, hin⟩
  · rintro ⟨hget, hin⟩
    exact ⟨kv.key, kv, ⟨hget, hin⟩, rfl⟩

theorem selected_sorted (s : Store) (key rangeEnd : Bytes) :
    (s.selected key rangeEnd).Pairwise (· < ·) :=
  s.kvs.keys_sorted.filter _

/-- `range_kvs` without limit and revision filters, at the current revision:
    the revision of no entry is in the future, so the filter passes them all. -/
theorem Reachable.rangeKvs_plain {s : Store} (hs : s.Reachable) {key rangeEnd : Bytes}
    (ho : Ordered key rangeEnd) (keysOnly countOnly : Bool) :
    s.rangeKvs { key := key, rangeEnd := rangeEnd, keysOnly := keysOnly, countOnly := countOnly } =
      .ok (s.selectedKvs key rangeEnd, false, (s.selectedKvs key rangeEnd).length) := by
  rw [rangeKvs_of_ordered ho]
  have hall : ∀ kv ∈ s.selectedKvs key rangeEnd,
      rangeFilter { key := key, rangeEnd := rangeEnd, keysOnly := keysOnly, countOnly := countOnly }
        s.revision kv = true := by
    intro kv hkv
    have hrev : kv.modRevision ≤ s.revision := (hs.entry (hs.mem_selectedKvs.mp hkv).1).2.2
    simp [rangeFilter, hrev]
  have hsel : (s.kvs.entries.filter fun e => inInterval key rangeEnd e.1).map Prod.snd =
      s.selectedKvs key rangeEnd := rfl
  simp only [hsel, atRev, if_true, page, le_refl]
  rw [List.filter_eq_self.mpr hall]

/-- The loop of `delete_range` counts every key it finds and collects its entry. -/
theorem deleteBody_foldl_prevKvs (rev : ℤ) (want : Bool) {es : List (Bytes × Kv)}
    (hn : (es.map Prod.fst).Nodup) (st : DeleteLoop)
    (hget : ∀ e ∈ es, st.kvs.get? e.1 = some e.2) :
    ((es.map Prod.fst).foldl (deleteBody rev want) st).events.length =
        st.events.length + es.length ∧
      ((es.map Prod.fst).foldl (deleteBody rev want) st).prevKvs =
        st.prevKvs ++ if want then es.map Prod.snd else [] := by
  induction es generalizing st with
  | nil => simp
  | cons e es ih =>
    obtain ⟨hfresh, hn⟩ := List.nodup_cons.mp hn
    have hhead : st.kvs.get? e.1 = some e.2 := hget e List.mem_cons_self
    have hrest : ∀ e' ∈ es, (st.kvs.remove e.1).get? e'.1 = some e'.2 := by
      intro e' he'
      have hne : e.1 ≠ e'.1 := fun h => hfresh (h ▸ List.mem_map_of_mem he')
      rw [OrdMap.get?_remove, if_neg hne]
      exact hget e' (List.mem_cons_of_mem _ he')
    have hbody : (deleteBody rev want st e.1).kvs = st.kvs.remove e.1 := by
      simp only [deleteBody, hhead]
    obtain ⟨hlen, hprev⟩ := ih hn (deleteBody rev want st e.1) (by rwa [hbody])
    refine ⟨hlen.trans ?_, hprev.trans ?_⟩
    · simp only [deleteBody, hhead, List.length_append, List.length_cons, List.length_nil]
      omega
    · cases want <;> simp [deleteBody, hhead]

/-- What `delete_range` answers on ordered bounds. -/
theorem deleteRange_response (s : Store) {key rangeEnd : Bytes} (ho : Ordered key rangeEnd)
    (want : Bool) :
    (s.deleteRange key rangeEnd want).1 =
      .ok ((s.deleteRange key rangeEnd want).2.header, (s.selectedKvs key rangeEnd).length,
        if want then s.selectedKvs key rangeEnd else []) := by
  have hn : ((s.kvs.entries.filter fun e => inInterval key rangeEnd e.1).map Prod.fst).Nodup := by
    rw [map_fst_filter_interval]
    exact selected_nodup s key rangeEnd
  have hget : ∀ e ∈ s.kvs.entries.filter (fun e => inInterval key rangeEnd e.1),
      s.kvs.get? e.1 = some e.2 :=
    fun e he => OrdMap.mem_entries_iff.mp (List.mem_filter.mp he).1
  simp only [deleteRange, interval_of_ordered ho]
  by_cases hnil : (s.kvs.entries.filter fun e => inInterval key rangeEnd e.1).map Prod.fst = []
  · have hempty : s.selectedKvs key rangeEnd = [] := by
      rw [selectedKvs, List.map_eq_nil_iff.mp hnil, List.map_nil]
    rw [if_pos hnil]
    simp [hempty]
  · rw [if_neg hnil]
    obtain ⟨hlen, hprev⟩ := deleteBody_foldl_prevKvs (s.revision + 1) want hn
      ⟨s.kvs, s.leases, [], []⟩ hget
    rw [hlen, hprev]
    simp [selectedKvs]

theorem deleteRange_revision (s : Store) {key rangeEnd : Bytes} (ho : Ordered key rangeEnd)
    (want : Bool) :
    (s.deleteRange key rangeEnd want).2.revision =
      if s.selected key rangeEnd = [] then s.revision else s.revision + 1 := by
  rw [deleteRange_store]
  by_cases hsel : s.selected key rangeEnd = []
  · simp [hsel]
  · simp [ho, hsel, deleteKeys, emit]

/-- Range, DeleteRange and Watch mean the same keys: the range returns the
    entries of the keys whose events the watch lets through, in key order; the
    deletion counts and returns these entries, removes them, and changes nothing
    else; the revision moves by one exactly if there is such a key. -/
theorem range_delete_watch_agree {s : Store} (hs : s.Reachable) (h : WatchHandle)
    (hfilter : h.filter = 0) (ho : Ordered h.key h.rangeEnd) (keysOnly countOnly want : Bool) :
    ∃ kvs : List Kv,
      s.rangeKvs { key := h.key, rangeEnd := h.rangeEnd,
                   keysOnly := keysOnly, countOnly := countOnly } = .ok (kvs, false, kvs.length) ∧
      (∀ (evType : EventType) (kv : Kv), kv.key ∈ kvs.map Kv.key ↔
        kv.key ∈ s.kvs.keys ∧ h.matches evType kv = true) ∧
      (∀ kv ∈ kvs, s.kvs.get? kv.key = some kv) ∧
      (kvs.map Kv.key).Pairwise (· < ·) ∧
      (s.deleteRange h.key h.rangeEnd want).1 =
        .ok ((s.deleteRange h.key h.rangeEnd want).2.header, kvs.length,
          if want then kvs else []) ∧
      (∀ k, (s.deleteRange h.key h.rangeEnd want).2.kvs.get? k =
        if k ∈ kvs.map Kv.key then none else s.kvs.get? k) ∧
      (s.deleteRange h.key h.rangeEnd want).2.revision =
        if kvs = [] then s.revision else s.revision + 1 := by
  have hkeys := hs.map_key_selectedKvs h.key h.rangeEnd
  refine ⟨s.selectedKvs h.key h.rangeEnd, hs.rangeKvs_plain ho keysOnly countOnly, ?_, ?_, ?_,
    deleteRange_response s ho want, ?_, ?_⟩
  · intro evType kv
    rw [hkeys, mem_selected, WatchHandle.matches_of_filter_eq_zero hfilter, OrdMap.mem_keys_iff]
  · exact fun kv hkv => (hs.mem_selectedKvs.mp hkv).1
  · rw [hkeys]
    exact selected_sorted s h.key h.rangeEnd
  · intro k
    rw [deleteRange_get?, hkeys]
    simp only [ho, true_and, mem_selected]
    cases hget : s.kvs.get? k <;> simp
  · rw [deleteRange_revision s ho want, ← hkeys]
    simp only [List.map_eq_nil_iff]

/-- The keys with the prefix `a`, among them one with a zero byte; `b` is past
    the end. -/
theorem range_delete_watch_agree_prefix :
    let s := Store.new.run
      [.put { key := [97] }, .put { key := [98] }, .put { key := [97, 0] }]
    let h : WatchHandle := ⟨1, [97], [98], false, filterMask [], 0⟩
    s.selected [97] [98] = [[97], [97, 0]] ∧
      ∃ kvs : List Kv, s.rangeKvs { key := [97], rangeEnd := [98] } = .ok (kvs, false, kvs.length) ∧
        (∀ (evType : EventType) (kv : Kv), kv.key ∈ kvs.map Kv.key ↔
          kv.key ∈ s.kvs.keys ∧ h.matches evType kv = true) ∧
        (s.deleteRange [97] [98] true).1 =
          .ok ((s.deleteRange [97] [98] true).2.header, kvs.length, kvs) := by
  intro s h
  have ho : Ordered h.key h.rangeEnd := by decide
  obtain ⟨kvs, hrange, hmatch, -, -, hdelete, -⟩ :=
    range_delete_watch_agree (s := s) ⟨_, rfl⟩ h (by decide) ho false false true
  exact ⟨by decide, kvs, hrange, hmatch, hdelete⟩

end Store

end Kubenyx.EtcdMem
