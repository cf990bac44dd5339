import Kubenyx.EtcdMem.Journal

/-!
# Reading the store from its history

Consequences of the journal for what clients read.

* `Reachable.entry`: every entry is stored under its own key and was last
  modified at a revision between 2 and the current one.
* `replay_eventsSince`: a list of the keys followed by the events since then
  reconstructs every later state of the keys, unless compaction evicted some of
  the events.
* `rangeKvs_past`: the store keeps one version per key, so a range at a past
  revision returns those entries of that revision that were neither put nor
  deleted since. It is the snapshot of that revision exactly when this leaves no
  entry out. With bounds in the wrong order there is nothing to leave out, and the
  range panics from the first key on.
-/

namespace Kubenyx.EtcdMem

open Kubenyx.Common

namespace Advances

variable {s s' : Store} {bs : List BroadcastBatch}

/-- The entry of a key after an advance: the old one if no event names the key,
    else what some event of the key left. -/
theorem get?_cases (h : Advances s s' bs) (k : Bytes) :
    ((∀ b ∈ bs, ∀ e ∈ b.events, e.kv.key ≠ k) ∧ s'.kvs.get? k = s.kvs.get? k) ∨
      ∃ b ∈ bs, ∃ e ∈ b.events, e.kv.key = k ∧ s'.kvs.get? k = e.change.next := by
  rw [h.kvs]
  rcases OrdMap.get?_replay_cases s.kvs (changes bs) k with ⟨hun, hget⟩ | ⟨c, hc, hck, hget⟩
  · refine Or.inl ⟨fun b hb e he => ?_, hget⟩
    exact hun e.change (mem_changes.mpr ⟨b, hb, e, he, rfl⟩)
  · obtain ⟨b, hb, e, he, rfl⟩ := mem_changes.mp hc
    exact Or.inr ⟨b, hb, e, he, hck, hget⟩

/-- An entry found after an advance was there before, untouched, or was written
    at a revision of the advance. -/
theorem get?_some_cases (h : Advances s s' bs) {k : Bytes} {kv : Kv}
    (hk : s'.kvs.get? k = some kv) :
    ((∀ b ∈ bs, ∀ e ∈ b.events, e.kv.key ≠ k) ∧ s.kvs.get? k = some kv) ∨
      (kv.key = k ∧ s.revision < kv.modRevision ∧ kv.modRevision ≤ s'.revision ∧
        ∃ b ∈ bs, ∃ e ∈ b.events, e.kv.key = k) := by
  rcases h.get?_cases k with ⟨hun, hget⟩ | ⟨b, hb, e, he, hek, hget⟩
  · exact Or.inl ⟨hun, by rw [← hget, hk]⟩
  · rw [hk, StoredEvent.change] at hget
    cases ht : e.evType with
    | delete => simp [ht] at hget
    | put =>
      simp only [ht, Option.some.injEq] at hget
      subst hget
      rw [h.modRevision b hb e he]
      exact Or.inr ⟨hek, (h.batch_bounds hb).1, (h.batch_bounds hb).2, b, hb, e, he, hek⟩

end Advances

namespace Store

/-- Every entry is stored under its own key, with a revision of the history. -/
theorem Reachable.entry {s : Store} (h : s.Reachable) {k : Bytes} {kv : Kv}
    (hk : s.kvs.get? k = some kv) :
    kv.key = k ∧ 2 ≤ kv.modRevision ∧ kv.modRevision ≤ s.revision := by
  rcases h.advances.get?_some_cases hk with ⟨-, hnew⟩ | ⟨hkey, hlo, hhi, -⟩
  · exact absurd hnew (by simp [Store.new])
  · have : Store.new.revision = 1 := rfl
    exact ⟨hkey, by omega, hhi⟩

theorem Reachable.revision_eq {s : Store} (h : s.Reachable) : s.revision = 1 + s.tx.length :=
  h.advances.revision

theorem Reachable.tx_numbered {s : Store} (h : s.Reachable) :
    Numbered BroadcastBatch.revision 2 s.tx :=
  h.advances.numbered

theorem Reachable.tx_le {s : Store} (h : s.Reachable) {b : BroadcastBatch} (hb : b ∈ s.tx) :
    b.revision ≤ s.revision :=
  (h.advances.batch_bounds hb).2

/-- The batches broadcast after a reachable state are those of a later revision. -/
theorem tx_filter_of_advances {s s' : Store} {bs : List BroadcastBatch} (hs : s.Reachable)
    (h : Advances s s' bs) : s'.tx.filter (fun b => b.revision > s.revision) = bs := by
  have hold : s.tx.filter (fun b => b.revision > s.revision) = [] := by
    rw [List.filter_eq_nil_iff]
    intro b hb
    have := hs.tx_le hb
    simp only [decide_eq_true_eq]
    omega
  rw [h.tx, List.filter_append, hold, List.nil_append, List.filter_eq_self]
  intro b hb
  simpa using (h.batch_bounds hb).1

/-! ## List, then replay -/

/-- What a client does with one event of the watch: a PUT stores its entry under
    its key, a DELETE removes the key. -/
def applyEvent (m : OrdMap Bytes Kv) (e : StoredEvent) : OrdMap Bytes Kv :=
  match e.evType with
  | .put => m.insert e.kv.key e.kv
  | .delete => m.remove e.kv.key

theorem foldl_applyEvent (m : OrdMap Bytes Kv) (es : List StoredEvent) :
    es.foldl applyEvent m = m.replay (es.map StoredEvent.change) := by
  induction es generalizing m with
  | nil => rfl
  | cons e es ih =>
    rw [List.foldl_cons, List.map_cons, OrdMap.replay_cons, ih]
    congr 1
    simp only [applyEvent, OrdMap.apply, StoredEvent.change]
    cases e.evType <;> rfl

/-- If the log still reaches back to the revision of `s`, `events_since` returns
    exactly what was broadcast after `s`. -/
theorem eventsSince_of_advances {s s' : Store} {bs : List BroadcastBatch} (hs : s.Reachable)
    (hs' : s'.LogOk) (h : Advances s s' bs) (hc : s'.compactRevision ≤ s.revision) :
    s'.eventsSince s.revision = bs.map BroadcastBatch.entry := by
  rw [eventsSince, hs' s.revision hc, List.filter_map, ← tx_filter_of_advances hs h]
  rfl

/-- Folding the events since the revision of `s` over the keys of `s` gives the
    keys of every later state that has not been compacted beyond that revision,
    and each event carries the entry that the fold held for its key. -/
theorem replay_eventsSince {s : Store} (hs : s.Reachable) (qs : List Request)
    (hc : (s.run qs).compactRevision ≤ s.revision) :
    (((s.run qs).eventsSince s.revision).flatMap Prod.snd).foldl applyEvent s.kvs =
        (s.run qs).kvs ∧
      ∀ pre e post, ((s.run qs).eventsSince s.revision).flatMap Prod.snd = pre ++ e :: post →
        e.prevKv = (pre.foldl applyEvent s.kvs).get? e.kv.key := by
  obtain ⟨bs, hbs⟩ := run_advances s qs
  have hflat : (((s.run qs).eventsSince s.revision).flatMap Prod.snd).map StoredEvent.change =
      changes bs := by
    rw [eventsSince_of_advances hs (hs.run qs).logOk hbs hc, List.flatMap_map, List.map_flatMap]
    rfl
  constructor
  · rw [foldl_applyEvent, hflat, hbs.kvs]
  · intro pre e post hsplit
    rw [hsplit, List.map_append, List.map_cons] at hflat
    rw [foldl_applyEvent]
    exact hbs.justified.prev_eq hflat.symm

/-- The keys after a put, against a run that overwrites the key in a nested
    transaction, attaches it to a lease and revokes the lease. -/
theorem replay_eventsSince_overwrite_revoke :
    let s := Store.new.run [.put { key := [97], value := [1] }]
    let qs : List Request :=
      [.leaseGrant ⟨5, 0, by decide, by decide⟩ 10 7,
       .txn (.mk [] [.requestTxn (.mk [] [.requestPut { key := [97], lease := 7 }] [])] []),
       .leaseRevoke 7, .compact 2]
    (((s.run qs).eventsSince s.revision).flatMap Prod.snd).foldl applyEvent s.kvs =
        (s.run qs).kvs ∧
      ∀ pre e post, ((s.run qs).eventsSince s.revision).flatMap Prod.snd = pre ++ e :: post →
        e.prevKv = (pre.foldl applyEvent s.kvs).get? e.kv.key :=
  replay_eventsSince ⟨_, rfl⟩ _ (by decide)

/-! ## Ranges at a past revision -/

/-- The history after revision `rev` has an event of the key. -/
def touchedSince (s : Store) (rev : ℤ) (k : Bytes) : Bool :=
  (s.tx.filter fun b => b.revision > rev).any fun b => b.events.any fun e => e.kv.key = k

/-- The entries that a request selects on `s` at its current revision. -/
def selection (s : Store) (r : RangeRequest) : List Kv :=
  ((s.kvs.entries.filter fun e => inInterval r.key r.rangeEnd e.1).map Prod.snd).filter
    (rangeFilter r s.revision)

theorem touchedSince_iff {s s' : Store} {bs : List BroadcastBatch} (hs : s.Reachable)
    (h : Advances s s' bs) (k : Bytes) :
    s'.touchedSince s.revision k = true ↔ ∃ b ∈ bs, ∃ e ∈ b.events, e.kv.key = k := by
  rw [touchedSince, tx_filter_of_advances hs h]
  simp

/-- Among the entries present after an advance, those not modified after the
    revision of `s` are the untouched entries of `s`. -/
theorem mem_entries_past {s s' : Store} {bs : List BroadcastBatch} (hs : s.Reachable)
    (h : Advances s s' bs) (k : Bytes) (kv : Kv) :
    (k, kv) ∈ s'.kvs.entries ∧ kv.modRevision ≤ s.revision ↔
      (k, kv) ∈ s.kvs.entries ∧ s'.touchedSince s.revision k = false := by
  rw [OrdMap.mem_entries_iff, OrdMap.mem_entries_iff, ← Bool.not_eq_true, touchedSince_iff hs h]
  constructor
  · rintro ⟨hget, hmod⟩
    rcases h.get?_some_cases hget with ⟨hun, hold⟩ | ⟨-, hlt, -, -⟩
    · exact ⟨hold, fun ⟨b, hb, e, he, hek⟩ => hun b hb e he hek⟩
    · omega
  · rintro ⟨hold, hun⟩
    rcases h.get?_cases k with ⟨-, hget⟩ | ⟨b, hb, e, he, hek, -⟩
    · exact ⟨by rw [hget, hold], (hs.entry hold).2.2⟩
    · exact absurd ⟨b, hb, e, he, hek⟩ hun

theorem modRevision_le_of_rangeFilter {r : RangeRequest} {rev : ℤ} {kv : Kv}
    (h : rangeFilter r rev kv = true) : kv.modRevision ≤ rev := by
  simp only [rangeFilter, Bool.and_eq_true, decide_eq_true_eq] at h
  exact h.1.1.1.1

theorem filter_past {s s' : Store} {bs : List BroadcastBatch} (hs : s.Reachable)
    (h : Advances s s' bs) (r : RangeRequest) :
    ((s'.kvs.entries.filter fun e => inInterval r.key r.rangeEnd e.1).map Prod.snd).filter
        (rangeFilter r s.revision) =
      (s.selection r).filter fun kv => !s'.touchedSince s.revision kv.key := by
  have hfilter : ∀ (es : List (Bytes × Kv)) (p : Kv → Bool) (q : Bytes → Bool),
      ((es.filter fun e => q e.1).map Prod.snd).filter p =
        (es.filter fun e => q e.1 && p e.2).map Prod.snd := by
    intro es p q
    rw [List.filter_map, List.filter_filter]
    simp only [Function.comp_def, Bool.and_comm]
  rw [selection, List.filter_filter, hfilter, hfilter]
  congr 1
  apply OrdMap.entries_eq_of_mem_iff (s'.kvs.sorted.filter _) (s.kvs.sorted.filter _)
  rintro ⟨k, kv⟩
  have hmem := mem_entries_past hs h k kv
  have hkey : (k, kv) ∈ s.kvs.entries → kv.key = k :=
    fun hk => (hs.entry (OrdMap.mem_entries_iff.mp hk)).1
  simp only [List.mem_filter, Bool.and_eq_true, Bool.not_eq_true']
  constructor
  · rintro ⟨hk, hi, hf⟩
    obtain ⟨hk', hu⟩ := hmem.mp ⟨hk, modRevision_le_of_rangeFilter hf⟩
    exact ⟨hk', hi, by rwa [hkey hk'], hf⟩
  · rintro ⟨hk, hi, hu, hf⟩
    rw [hkey hk] at hu
    exact ⟨(hmem.mpr ⟨hk, hu⟩).1, hi, hf⟩

@[simp] theorem page_count (limit : ℤ) (kvs : List Kv) : (page limit kvs).2.2 = kvs.length := by
  unfold page
  split_ifs <;> rfl

/-- Bounds in the wrong order select nothing. -/
theorem selection_of_not_ordered {s : Store} {r : RangeRequest} (h : ¬ Ordered r.key r.rangeEnd) :
    s.selection r = [] := by
  rw [selection, filter_of_not_ordered s.kvs h]
  rfl

/-- A range at the revision of an earlier state `s` returns the entries that the
    request selects on `s` and that were neither put nor deleted since, unless it
    panics. It does what the range did on `s` exactly when that is all of them and,
    with bounds in the wrong order, the first key of all did not come in between. -/
theorem rangeKvs_past {s : Store} (hs : s.Reachable) (qs : List Request) (r : RangeRequest)
    (hr : r.revision = s.revision) :
    (s.run qs).rangeKvs r =
      (if (s.run qs).Accepts r.key r.rangeEnd then .ok (page r.limit
        ((s.selection r).filter fun kv => !(s.run qs).touchedSince s.revision kv.key))
      else .error .rangeStartAfterEnd) ∧
    ((s.run qs).rangeKvs r = s.rangeKvs { r with revision := 0 } ↔
      (∀ kv ∈ s.selection r, (s.run qs).touchedSince s.revision kv.key = false) ∧
        (Ordered r.key r.rangeEnd ∨ (s.run qs).rooted = s.rooted)) := by
  obtain ⟨bs, hbs⟩ := run_advances s qs
  have hat : (s.run qs).atRev r = s.revision := by
    have h1 := hbs.revision_le
    have h2 := hs.revision_eq
    rw [atRev, if_neg (by omega), hr]
    omega
  have hnow : s.Accepts r.key r.rangeEnd → s.rangeKvs { r with revision := 0 } =
      .ok (page r.limit (s.selection r)) := fun ha => rangeKvs_of_accepts ha
  have hpast : (s.run qs).Accepts r.key r.rangeEnd → (s.run qs).rangeKvs r = .ok (page r.limit
      ((s.selection r).filter fun kv => !(s.run qs).touchedSince s.revision kv.key)) := by
    intro ha
    rw [rangeKvs_of_accepts ha, hat, filter_past hs hbs r]
  constructor
  · split_ifs with ha
    · exact hpast ha
    · exact rangeKvs_of_not_accepts ha
  by_cases ho : Ordered r.key r.rangeEnd
  · rw [hpast (Or.inl ho), hnow (Or.inl ho), and_iff_left (Or.inl ho)]
    constructor
    · intro h
      -- equal pages have equal counts, so the filter drops nothing
      have hcount := congrArg (fun p => p.2.2) (Except.ok.inj h)
      simp only [page_count, Nat.cast_inj, List.length_filter_eq_length_iff] at hcount
      intro kv hkv
      simpa using hcount kv hkv
    · intro h
      rw [List.filter_eq_self.mpr fun kv hkv => by simp [h kv hkv]]
  · -- nothing is selected, and the calls differ if just one of them panics
    rw [rangeKvs_of_not_ordered ho, rangeKvs_of_not_ordered (r := { r with revision := 0 }) ho,
      selection_of_not_ordered ho, or_iff_right ho]
    cases (s.run qs).rooted <;> cases s.rooted <;> simp

/-- The range of all keys at the revision of the first of two puts of one key. -/
theorem rangeKvs_past_overwritten :
    let s := Store.new.run [.put { key := [97] }, .put { key := [98] }]
    let qs : List Request := [.put { key := [97] }]
    let r : RangeRequest := { key := [0], rangeEnd := [0], revision := 3 }
    (s.run qs).rangeKvs r =
      (if (s.run qs).Accepts r.key r.rangeEnd then .ok (page r.limit
        ((s.selection r).filter fun kv => !(s.run qs).touchedSince s.revision kv.key))
      else .error .rangeStartAfterEnd) ∧
    ((s.run qs).rangeKvs r = s.rangeKvs { r with revision := 0 } ↔
      (∀ kv ∈ s.selection r, (s.run qs).touchedSince s.revision kv.key = false) ∧
        (Ordered r.key r.rangeEnd ∨ (s.run qs).rooted = s.rooted)) :=
  rangeKvs_past ⟨_, rfl⟩ _ _ (by decide)

/-- One key is put at revision 2 and again at revision 3; the range of that key
    at revision 2 finds it on the state of revision 2 and nothing on the later
    one. -/
theorem rangeKvs_past_loses_key :
    let s := Store.new.run [.put { key := [97], value := [1] }]
    let s' := s.run [.put { key := [97], value := [2] }]
    s.revision = 2 ∧ s'.compactRevision < 2 ∧ 2 ≤ s'.revision ∧
      (∃ kv, s.rangeKvs { key := [97] } = .ok ([kv], false, 1)) ∧
      s'.rangeKvs { key := [97], revision := 2 } = .ok ([], false, 0) :=
  ⟨by decide, by decide, by decide, ⟨_, rfl⟩, rfl⟩

end Store

end Kubenyx.EtcdMem
