import Kubenyx.EtcdMem.History

/-!
# Key metadata

The revisions and the version that the store keeps with each entry are a function
of the history of its key: the PUT and DELETE events of the key, each with the
revision of its batch.

* `Reachable.annotated`: in every reachable state each key is described by its
  history.
* `Reachable.logSuffix`: the log is a final part of the broadcast history, also
  after compactions at revisions that do not exist yet.
* `metadata`: the two together, with the numbering of the log.
-/

namespace Kubenyx.EtcdMem

open Kubenyx.Common

/-! ## The history of a key -/

/-- The events of a key in a list of batches, each with its revision. -/
def keyHistory (k : Bytes) (bs : List BroadcastBatch) : List (ℤ × EventType) :=
  bs.flatMap fun b => (b.events.filter fun e => e.kv.key = k).map fun e => (b.revision, e.evType)

/-- The revisions of the PUTs after the last DELETE, of all PUTs if there is
    none. -/
def livePuts (h : List (ℤ × EventType)) : List ℤ :=
  (h.rtakeWhile fun e => e.2 = .put).map Prod.fst

/-- A key with the history `h` has the entry `o`: none if it was never put or was
    deleted last, else one that counts its live PUTs and names the first and the
    last. -/
def Described (h : List (ℤ × EventType)) : Option Kv → Prop
  | none => livePuts h = []
  | some kv =>
    h.getLast? = some (kv.modRevision, .put) ∧
      (livePuts h).head? = some kv.createRevision ∧ kv.version = (livePuts h).length

section Histories

variable {h : List (ℤ × EventType)} {rev : ℤ}

theorem livePuts_put : livePuts (h ++ [(rev, .put)]) = livePuts h ++ [rev] := by
  rw [livePuts, List.rtakeWhile_concat_pos _ _ _ (by simp), List.map_append]
  rfl

theorem livePuts_delete : livePuts (h ++ [(rev, .delete)]) = [] := by
  rw [livePuts, List.rtakeWhile_concat_neg _ _ _ (by simp), List.map_nil]

/-- A PUT that counts on from the entry it replaces. -/
theorem Described.put {prev : Option Kv} (hd : Described h prev) {kv : Kv}
    (hmod : kv.modRevision = rev)
    (hcreate : kv.createRevision = (prev.map Kv.createRevision).getD rev)
    (hversion : kv.version = (prev.map fun k => k.version + 1).getD 1) :
    Described (h ++ [(rev, .put)]) (some kv) := by
  refine ⟨by rw [List.getLast?_concat, hmod], ?_, ?_⟩
  · rw [livePuts_put, hcreate]
    cases prev with
    | none =>
      have hnil : livePuts h = [] := hd
      rw [hnil]
      rfl
    | some old =>
      rw [List.head?_append, hd.2.1]
      rfl
  · rw [livePuts_put, hversion, List.length_append]
    cases prev with
    | none =>
      have hnil : livePuts h = [] := hd
      rw [hnil]
      rfl
    | some old =>
      rw [Option.map_some, Option.getD_some, hd.2.2]
      rfl

theorem Described.delete : Described (h ++ [(rev, .delete)]) none := livePuts_delete

end Histories

theorem keyHistory_append (k : Bytes) (bs cs : List BroadcastBatch) :
    keyHistory k (bs ++ cs) = keyHistory k bs ++ keyHistory k cs := List.flatMap_append

theorem keyHistory_singleton (k : Bytes) (rev : ℤ) (es : List StoredEvent) :
    keyHistory k [⟨rev, es⟩] =
      (es.filter fun e => e.kv.key = k).map fun e => (rev, e.evType) := by
  simp [keyHistory]

/-- A batch of DELETEs of distinct keys is one DELETE of each. -/
theorem keyHistory_deletes (k : Bytes) (rev : ℤ) {es : List StoredEvent}
    (hn : (es.map fun e => e.kv.key).Nodup) (hd : ∀ e ∈ es, e.evType = .delete) :
    keyHistory k [⟨rev, es⟩] = if k ∈ es.map (fun e => e.kv.key) then [(rev, .delete)] else [] := by
  rw [keyHistory_singleton]
  induction es with
  | nil => rfl
  | cons e es ih =>
    obtain ⟨hnot, hn⟩ := List.nodup_cons.mp hn
    have ih := ih hn fun e' he' => hd e' (List.mem_cons_of_mem _ he')
    by_cases hk : e.kv.key = k
    · subst hk
      rw [if_neg hnot] at ih
      rw [List.filter_cons_of_pos (by simp), List.map_cons, ih, hd e List.mem_cons_self]
      exact (if_pos List.mem_cons_self).symm
    · rw [List.filter_cons_of_neg (by simpa using hk), ih]
      simp [Ne.symm hk]

namespace Store

/-! ## The entries along runs -/

/-- Every key is described by its history, with revisions in order. -/
structure Annotated (s : Store) : Prop where
  described : ∀ k, Described (keyHistory k s.tx) (s.kvs.get? k)
  bounds : ∀ k kv, s.kvs.get? k = some kv →
    2 ≤ kv.createRevision ∧ kv.createRevision ≤ kv.modRevision ∧ kv.modRevision ≤ s.revision
  revision_pos : 1 ≤ s.revision

theorem annotated_new : Annotated Store.new where
  described _ := rfl
  bounds _ _ h := by simp [Store.new] at h
  revision_pos := le_rfl

/-- A step that leaves the keys, the revision and the channel alone. -/
theorem Annotated.frame {s s' : Store} (h : s.Annotated) (hk : s'.kvs = s.kvs)
    (hr : s'.revision = s.revision) (ht : s'.tx = s.tx) : s'.Annotated where
  described := by rw [hk, ht]; exact h.described
  bounds := by rw [hk, hr]; exact h.bounds
  revision_pos := by rw [hr]; exact h.revision_pos

theorem annotated_put {s : Store} (h : s.Annotated) (key value : Bytes) (lease : ℤ)
    (want ignoreValue ignoreLease : Bool) :
    (s.put key value lease want ignoreValue ignoreLease).2.Annotated where
  described k := by
    simp only [put, emit, keyHistory_append, keyHistory_singleton, OrdMap.get?_insert]
    by_cases hk : key = k
    · subst hk
      rw [List.filter_cons_of_pos (by simp), List.filter_nil, if_pos rfl]
      exact (h.described key).put rfl rfl rfl
    · simpa [hk] using h.described k
  bounds k kv hkv := by
    have hpos := h.revision_pos
    simp only [put, emit, OrdMap.get?_insert] at hkv ⊢
    by_cases hk : key = k
    · rw [if_pos hk] at hkv
      obtain rfl := Option.some.inj hkv
      cases hprev : s.kvs.get? key with
      | none =>
        simp only [Option.map_none, Option.getD_none]
        omega
      | some old =>
        have := h.bounds key old hprev
        simp only [Option.map_some, Option.getD_some]
        omega
    · rw [if_neg hk] at hkv
      have := h.bounds k kv hkv
      omega
  revision_pos := by
    have := h.revision_pos
    simp only [put, emit]
    omega

/-- Deleting keys that are present. -/
theorem annotated_deleteKeys {s : Store} (h : s.Annotated) {keys : List Bytes} (hn : keys.Nodup)
    (hp : ∀ k ∈ keys, (s.kvs.get? k).isSome) : (s.deleteKeys keys).Annotated := by
  obtain ⟨evs, hevs, -, -, hkeys, htype⟩ :=
    deleteBody_foldl (s.revision + 1) keys hn s.kvs hp s.leases [] []
  rw [List.nil_append] at hevs
  have htx : (s.deleteKeys keys).tx = s.tx ++ [⟨s.revision + 1, evs⟩] := by
    simp [deleteKeys, emit, hevs]
  have hget : ∀ k, (s.deleteKeys keys).kvs.get? k = if k ∈ keys then none else s.kvs.get? k :=
    fun k => deleteBody_foldl_get? _ _ _ _ k
  have hrev : (s.deleteKeys keys).revision = s.revision + 1 := rfl
  refine ⟨fun k => ?_, fun k kv hkv => ?_, ?_⟩
  · rw [htx, hget, keyHistory_append,
      keyHistory_deletes k _ (by rwa [hkeys]) fun e he => (htype e he).2.1, hkeys]
    split_ifs
    · exact Described.delete
    · rw [List.append_nil]
      exact h.described k
  · rw [hget] at hkv
    split_ifs at hkv
    have := h.bounds k kv hkv
    omega
  · have := h.revision_pos
    omega

theorem annotated_deleteRange {s : Store} (h : s.Annotated) (key rangeEnd : Bytes) (want : Bool) :
    (s.deleteRange key rangeEnd want).2.Annotated := by
  rw [deleteRange_store]
  split_ifs
  · exact annotated_deleteKeys h (selected_nodup s key rangeEnd) fun k hk => (mem_selected.mp hk).1
  · exact h

theorem annotated_effect {s : Store} (h : s.Annotated) (ls : List LeafOp) :
    (s.effect ls).Annotated :=
  effect_invariant (P := Annotated) (fun _ _ h => annotated_put h ..)
    (fun _ _ h => annotated_deleteRange h ..) h ls

theorem annotated_after {s : Store} (q : Request) (h : s.Annotated) : (s.after q).Annotated := by
  cases q with
  | range r => rwa [after_range]
  | put r => exact annotated_put h r.key r.value r.lease r.prevKv r.ignoreValue r.ignoreLease
  | deleteRange r =>
    rw [after_deleteRange]
    exact annotated_deleteRange h ..
  | txn r =>
    rw [after_txn, txn_effect]
    exact annotated_effect h _
  | compact rev =>
    rw [after_compact, compact]
    split_ifs <;> exact h.frame rfl rfl rfl
  | leaseGrant now ttl id =>
    rw [after_leaseGrant]
    rcases leaseGrant_cases s now ttl id with ⟨-, he⟩ | ⟨deadline, -, he⟩
    · exact h.frame (by rw [he]) (by rw [he]) (by rw [he])
    · exact h.frame (by rw [he]) (by rw [he]) (by rw [he])
  | leaseRevoke id =>
    rw [after_leaseRevoke]
    cases hle : s.leases.get? id with
    | none => rwa [leaseRevoke_of_none hle]
    | some le =>
      rw [leaseRevoke_of_some hle]
      exact annotated_effect (s := s.dropLease id) (h.frame rfl rfl rfl) _
  | leaseKeepAlive now id =>
    rw [after_leaseKeepAlive]
    rcases leaseKeepalive_cases s now id with he | ⟨le, deadline, -, -, he⟩
    · rwa [he]
    · exact h.frame (by rw [he]) (by rw [he]) (by rw [he])
  | leaseTimeToLive now id keys => exact h
  | leaseLeases => exact h

theorem Reachable.annotated {s : Store} (h : s.Reachable) : s.Annotated :=
  h.invariant annotated_new fun _ q => annotated_after q

/-! ## The log along runs -/

/-- The log is what remains of the broadcast history after dropping its first
    batches. -/
def LogSuffix (s : Store) : Prop :=
  ∃ n ≤ s.tx.length, s.log = (s.tx.drop n).map BroadcastBatch.entry

theorem LogSuffix.logs {s s' : Store} {bs : List BroadcastBatch} (h : s.LogSuffix)
    (hl : Logs s s' bs) : s'.LogSuffix := by
  obtain ⟨n, hn, hlog⟩ := h
  refine ⟨n, ?_, ?_⟩
  · rw [hl.tx, List.length_append]
    omega
  · rw [hl.log, hlog, hl.tx, List.drop_append_of_le_length hn, List.map_append]

theorem logSuffix_compact {s : Store} (hs : s.Reachable) (h : s.LogSuffix) (rev : ℤ) :
    (s.compact rev).2.LogSuffix := by
  obtain ⟨n, hn, hlog⟩ := h
  unfold compact
  split_ifs with hrev
  · have hnum : Numbered BroadcastBatch.revision (2 + n) (s.tx.drop n) := hs.tx_numbered.drop hn
    refine ⟨min (n + (rev + 1 - (2 + n)).toNat) s.tx.length, min_le_right _ _, ?_⟩
    have hfilter : s.log.filter (fun e => e.1 > rev) =
        ((s.tx.drop n).filter fun b => b.revision > rev).map BroadcastBatch.entry := by
      rw [hlog, List.filter_map]
      rfl
    have hdrop : ∀ m, s.tx.drop (min m s.tx.length) = s.tx.drop m := by
      intro m
      rcases Nat.le_total m s.tx.length with hm | hm
      · rw [min_eq_left hm]
      · rw [min_eq_right hm, List.drop_length, List.drop_eq_nil_of_le hm]
    rw [hdrop]
    exact hfilter.trans (by rw [hnum.filter_gt, List.drop_drop])
  · exact ⟨n, hn, hlog⟩

theorem logSuffix_after {s : Store} (hs : s.Reachable) (h : s.LogSuffix) (q : Request) :
    (s.after q).LogSuffix := by
  by_cases hq : ∀ rev, q ≠ .compact rev
  · obtain ⟨bs, hbs⟩ := after_logs s q hq
    exact h.logs hbs
  · push Not at hq
    obtain ⟨rev, rfl⟩ := hq
    exact logSuffix_compact hs h rev

theorem Reachable.logSuffix {s : Store} (h : s.Reachable) : s.LogSuffix := by
  have hinv : s.Reachable ∧ s.LogSuffix := by
    refine h.invariant (P := fun s => s.Reachable ∧ s.LogSuffix) ?_ ?_
    · exact ⟨reachable_new, 0, le_rfl, rfl⟩
    · exact fun s q hs => ⟨hs.1.after q, logSuffix_after hs.1 hs.2 q⟩
  exact hinv.2

/-- The log is numbered consecutively up to the revision of the store. -/
theorem Reachable.log_numbered {s : Store} (h : s.Reachable) :
    Numbered Prod.fst (s.revision - s.log.length + 1) s.log := by
  obtain ⟨n, hn, hlog⟩ := h.logSuffix
  have hlen : (s.log.length : ℤ) = s.tx.length - n := by
    rw [hlog, List.length_map, List.length_drop]
    omega
  have hstart : s.revision - s.log.length + 1 = 2 + n := by
    rw [h.revision_eq, hlen]
    ring
  rw [hstart, hlog]
  exact Numbered.map (h.tx_numbered.drop hn)

theorem Reachable.mem_log {s : Store} (h : s.Reachable) {e : ℤ × List StoredEvent}
    (he : e ∈ s.log) : ∃ b ∈ s.tx, b.entry = e := by
  obtain ⟨n, -, hlog⟩ := h.logSuffix
  rw [hlog] at he
  obtain ⟨b, hb, rfl⟩ := List.mem_map.mp he
  exact ⟨b, List.mem_of_mem_drop hb, rfl⟩

/-- In every reachable state the history accounts for the keys, every entry is
    stored under its key with the revision of its last PUT, the revision of the
    first and the number of the PUTs since its last DELETE, and the log has the
    consecutive revisions up to the current one, each with events of that
    revision. -/
theorem metadata {s : Store} (hs : s.Reachable) :
    s.kvs = OrdMap.empty.replay (changes s.tx) ∧
    (∀ k kv, s.kvs.get? k = some kv →
      kv.key = k ∧ (keyHistory k s.tx).getLast? = some (kv.modRevision, .put) ∧
      (livePuts (keyHistory k s.tx)).head? = some kv.createRevision ∧
      kv.version = (livePuts (keyHistory k s.tx)).length ∧
      2 ≤ kv.createRevision ∧ kv.createRevision ≤ kv.modRevision ∧
      kv.modRevision ≤ s.revision) ∧
    Numbered Prod.fst (s.revision - s.log.length + 1) s.log ∧
    (∀ e ∈ s.log, e.2 ≠ []) ∧
    ∀ e ∈ s.log, ∀ ev ∈ e.2, ev.kv.modRevision = e.1 := by
  have hadv := hs.advances
  refine ⟨hadv.kvs, fun k kv hk => ?_, hs.log_numbered, fun e he => ?_, fun e he ev hev => ?_⟩
  · have hdesc := hs.annotated.described k
    rw [hk] at hdesc
    exact ⟨(hs.entry hk).1, hdesc.1, hdesc.2.1, hdesc.2.2, hs.annotated.bounds k kv hk⟩
  · obtain ⟨b, hb, rfl⟩ := hs.mem_log he
    exact hadv.nonempty b hb
  · obtain ⟨b, hb, rfl⟩ := hs.mem_log he
    exact hadv.modRevision b hb ev hev

/-- A key put, deleted and put twice in a nested transaction, with a compaction
    at a revision to come. -/
theorem metadata_recreated_key :
    let s := Store.new.run
      [.put { key := [97] }, .deleteRange { key := [97] }, .compact 4,
       .txn (.mk [] [.requestPut { key := [97] }, .requestTxn (.mk [] [.requestPut { key := [97] }] [])]
         [])]
    (s.kvs.get? [97]).map (fun kv => (kv.createRevision, kv.modRevision, kv.version)) =
        some (4, 5, 2) ∧
      livePuts (keyHistory [97] s.tx) = [4, 5] ∧
      Numbered Prod.fst (s.revision - s.log.length + 1) s.log := by
  intro s
  exact ⟨by decide, by decide, (metadata (s := s) ⟨_, rfl⟩).2.2.1⟩

end Store

end Kubenyx.EtcdMem
