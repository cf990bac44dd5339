import Kubenyx.Common.Replay
import Kubenyx.Common.Numbered
import Kubenyx.EtcdMem.Plan

/-!
# The store is a replayed journal

Every change of the key space goes through `emit`, which logs the change and
broadcasts it. `Advances s s' bs` says that going from `s` to `s'` broadcast
exactly the batches `bs`, numbered by the revisions after `s.revision`, and that
replaying their events over the keys of `s` gives the keys of `s'`, each event
recording the entry it replaced.

* `put_logs`, `deleteKeys_logs`, `effect_logs`: the mutations advance the store,
  by one batch for each put and each deletion that finds a key.
* `after_advances`, `run_advances`: so does every request and every run.
* `Reachable.logOk`: the log is the broadcast history except for what
  compaction evicted.
-/

namespace Kubenyx.EtcdMem

open Kubenyx.Common

/-- The change that a stored event describes: a PUT leaves its entry, a DELETE
    leaves nothing. -/
def StoredEvent.change (e : StoredEvent) : Change Bytes Kv where
  key := e.kv.key
  prev := e.prevKv
  next := match e.evType with
    | .put => some e.kv
    | .delete => none

/-- The log entry of a batch. -/
def BroadcastBatch.entry (b : BroadcastBatch) : ℤ × List StoredEvent := (b.revision, b.events)

/-- The changes of a list of batches, in order. -/
def changes (bs : List BroadcastBatch) : List (Change Bytes Kv) :=
  bs.flatMap fun b => b.events.map StoredEvent.change

theorem changes_append (bs cs : List BroadcastBatch) : changes (bs ++ cs) = changes bs ++ changes cs :=
  List.flatMap_append

@[simp] theorem changes_singleton (rev : ℤ) (es : List StoredEvent) :
    changes [⟨rev, es⟩] = es.map StoredEvent.change := by simp [changes]

theorem mem_changes {bs : List BroadcastBatch} {c : Change Bytes Kv} :
    c ∈ changes bs ↔ ∃ b ∈ bs, ∃ e ∈ b.events, e.change = c := by
  simp [changes]

/-- Going from `s` to `s'` broadcasts the batches `bs` and makes exactly the
    changes they describe. -/
structure Advances (s s' : Store) (bs : List BroadcastBatch) : Prop where
  tx : s'.tx = s.tx ++ bs
  numbered : Numbered BroadcastBatch.revision (s.revision + 1) bs
  revision : s'.revision = s.revision + bs.length
  kvs : s'.kvs = s.kvs.replay (changes bs)
  justified : s.kvs.Justified (changes bs)
  nonempty : ∀ b ∈ bs, b.events ≠ []
  modRevision : ∀ b ∈ bs, ∀ e ∈ b.events, e.kv.modRevision = b.revision
  keysNodup : ∀ b ∈ bs, (b.events.map fun e => e.kv.key).Nodup
  deletes : ∀ b ∈ bs, ∀ e ∈ b.events, e.evType = .delete → e.prevKv.isSome

/-- An advance that also logs what it broadcasts and compacts nothing. -/
structure Logs (s s' : Store) (bs : List BroadcastBatch) : Prop extends Advances s s' bs where
  log : s'.log = s.log ++ bs.map BroadcastBatch.entry
  compactRevision : s'.compactRevision = s.compactRevision

namespace Advances

variable {s s' s'' : Store} {bs cs : List BroadcastBatch}

/-- A step that leaves the keys, the revision and the channel alone. -/
theorem of_frame (hk : s'.kvs = s.kvs) (hr : s'.revision = s.revision) (ht : s'.tx = s.tx) :
    Advances s s' [] where
  tx := by simp [ht]
  numbered := trivial
  revision := by simp [hr]
  kvs := by simp [changes, hk]
  justified := trivial
  nonempty := by simp
  modRevision := by simp
  keysNodup := by simp
  deletes := by simp

theorem trans (h : Advances s s' bs) (h' : Advances s' s'' cs) : Advances s s'' (bs ++ cs) where
  tx := by rw [h'.tx, h.tx, List.append_assoc]
  numbered := by
    refine Numbered.append_iff.mpr ⟨h.numbered, ?_⟩
    have := h'.numbered
    rwa [h.revision, add_right_comm] at this
  revision := by
    rw [h'.revision, h.revision, List.length_append]
    push_cast
    ring
  kvs := by rw [h'.kvs, h.kvs, changes_append, OrdMap.replay_append]
  justified := by
    rw [changes_append, OrdMap.justified_append, ← h.kvs]
    exact ⟨h.justified, h'.justified⟩
  nonempty := List.forall_mem_append.mpr ⟨h.nonempty, h'.nonempty⟩
  modRevision := List.forall_mem_append.mpr ⟨h.modRevision, h'.modRevision⟩
  keysNodup := List.forall_mem_append.mpr ⟨h.keysNodup, h'.keysNodup⟩
  deletes := List.forall_mem_append.mpr ⟨h.deletes, h'.deletes⟩

theorem revision_le (h : Advances s s' bs) : s.revision ≤ s'.revision := by
  have := h.revision
  omega

/-- The revisions of the batches lie after `s.revision` and up to `s'.revision`. -/
theorem batch_bounds (h : Advances s s' bs) {b : BroadcastBatch} (hb : b ∈ bs) :
    s.revision < b.revision ∧ b.revision ≤ s'.revision := by
  have := h.numbered.mem_bounds hb
  have := h.revision
  omega

end Advances

namespace Logs

variable {s s' s'' : Store} {bs cs : List BroadcastBatch}

/-- A step that changes only leases. -/
theorem of_frame (hk : s'.kvs = s.kvs) (hr : s'.revision = s.revision) (ht : s'.tx = s.tx)
    (hl : s'.log = s.log) (hc : s'.compactRevision = s.compactRevision) : Logs s s' [] where
  toAdvances := Advances.of_frame hk hr ht
  log := by simp [hl]
  compactRevision := hc

theorem refl (s : Store) : Logs s s [] := of_frame rfl rfl rfl rfl rfl

theorem trans (h : Logs s s' bs) (h' : Logs s' s'' cs) : Logs s s'' (bs ++ cs) where
  toAdvances := h.toAdvances.trans h'.toAdvances
  log := by rw [h'.log, h.log, List.map_append, List.append_assoc]
  compactRevision := by rw [h'.compactRevision, h.compactRevision]

end Logs

namespace Store

/-! ## Mutations -/

/-- `put` logs one PUT event of its key. -/
theorem put_logs (s : Store) (key value : Bytes) (lease : ℤ) (want ignoreValue ignoreLease : Bool) :
    ∃ b, Logs s (s.put key value lease want ignoreValue ignoreLease).2 [b] := by
  refine ⟨_, { tx := rfl, numbered := ⟨rfl, trivial⟩, revision := rfl, kvs := ?_, justified := ?_,
               nonempty := ?_, modRevision := ?_, keysNodup := ?_, deletes := ?_, log := rfl,
               compactRevision := rfl }⟩
  · simp [put, emit, StoredEvent.change, OrdMap.apply]
  · simp [StoredEvent.change, OrdMap.Justified]
  all_goals simp

/-- The loop of `delete_range` on keys that are present: one DELETE event per
    key, describing the removal. -/
theorem deleteBody_foldl (rev : ℤ) (keys : List Bytes) (hn : keys.Nodup)
    (kvs : OrdMap Bytes Kv) (hp : ∀ k ∈ keys, (kvs.get? k).isSome)
    (leases : OrdMap ℤ LeaseEntry) (prevKvs : List Kv) (events : List StoredEvent) :
    ∃ evs : List StoredEvent,
      (keys.foldl (deleteBody rev false) ⟨kvs, leases, prevKvs, events⟩).events = events ++ evs ∧
      (keys.foldl (deleteBody rev false) ⟨kvs, leases, prevKvs, events⟩).kvs =
        kvs.replay (evs.map StoredEvent.change) ∧
      kvs.Justified (evs.map StoredEvent.change) ∧
      evs.map (fun e => e.kv.key) = keys ∧
      (∀ e ∈ evs, e.kv.modRevision = rev ∧ e.evType = .delete ∧ e.prevKv.isSome) := by
  induction keys generalizing kvs leases prevKvs events with
  | nil => exact ⟨[], by simp [OrdMap.Justified]⟩
  | cons k keys ih =>
    obtain ⟨hk, hn⟩ := List.nodup_cons.mp hn
    obtain ⟨old, hold⟩ := Option.isSome_iff_exists.mp (hp k List.mem_cons_self)
    have hrest : ∀ k' ∈ keys, ((kvs.remove k).get? k').isSome := by
      intro k' hk'
      rw [OrdMap.get?_remove, if_neg (by rintro rfl; exact hk hk')]
      exact hp k' (List.mem_cons_of_mem _ hk')
    obtain ⟨evs, h1, h2, h3, h4, h5⟩ := ih hn (kvs.remove k) hrest (deregister leases old.lease k)
      prevKvs (events ++ [⟨.delete, ⟨k, [], old.createRevision, rev, 0, 0⟩, some old⟩])
    rw [List.foldl_cons, deleteBody, hold]
    refine ⟨⟨.delete, ⟨k, [], old.createRevision, rev, 0, 0⟩, some old⟩ :: evs, ?_, ?_, ?_, ?_, ?_⟩
    · rw [List.append_cons]
      exact h1
    · rw [List.map_cons, OrdMap.replay_cons]
      exact h2
    · exact ⟨hold.symm, h3⟩
    · rw [List.map_cons, h4]
    · exact List.forall_mem_cons.mpr ⟨⟨rfl, rfl, rfl⟩, h5⟩

/-- Deleting a non-empty list of present keys logs one batch. -/
theorem deleteKeys_logs (s : Store) {keys : List Bytes} (hne : keys ≠ []) (hn : keys.Nodup)
    (hp : ∀ k ∈ keys, (s.kvs.get? k).isSome) :
    ∃ b, Logs s (s.deleteKeys keys) [b] ∧ b.events.map (fun e => e.kv.key) = keys := by
  obtain ⟨evs, h1, h2, h3, h4, h5⟩ :=
    deleteBody_foldl (s.revision + 1) keys hn s.kvs hp s.leases [] []
  rw [List.nil_append] at h1
  refine ⟨⟨s.revision + 1, evs⟩, ?_, h4⟩
  have htx : (s.deleteKeys keys).tx = s.tx ++ [⟨s.revision + 1, evs⟩] := by
    simp [deleteKeys, emit, h1]
  have hlog : (s.deleteKeys keys).log = s.log ++ [(s.revision + 1, evs)] := by
    simp [deleteKeys, emit, h1]
  have hkvs : (s.deleteKeys keys).kvs = s.kvs.replay (evs.map StoredEvent.change) := h2
  refine { tx := htx, numbered := ⟨rfl, trivial⟩, revision := rfl, kvs := ?_, justified := ?_,
           nonempty := ?_, modRevision := ?_, keysNodup := ?_, deletes := ?_, log := hlog,
           compactRevision := rfl }
  · rw [changes_singleton, hkvs]
  · rwa [changes_singleton]
  · refine List.forall_mem_singleton.mpr fun h => hne ?_
    have hnil : evs = [] := h
    rw [← h4, hnil, List.map_nil]
  · exact List.forall_mem_singleton.mpr fun e he => (h5 e he).1
  · exact List.forall_mem_singleton.mpr (by rwa [h4])
  · exact List.forall_mem_singleton.mpr fun e he _ => (h5 e he).2.2

/-- `delete_range` logs one batch if it finds a key, and nothing otherwise. -/
theorem deleteRange_logs (s : Store) (key rangeEnd : Bytes) (want : Bool) :
    ∃ bs, Logs s (s.deleteRange key rangeEnd want).2 bs ∧
      bs.length = if Ordered key rangeEnd ∧ s.selected key rangeEnd ≠ [] then 1 else 0 := by
  rw [deleteRange_store]
  split_ifs with h
  · obtain ⟨b, hb, -⟩ := deleteKeys_logs s h.2 (selected_nodup s key rangeEnd)
      fun k hk => (mem_selected.mp hk).1
    exact ⟨[b], hb, rfl⟩
  · exact ⟨[], Logs.refl s, rfl⟩

end Store

/-- The leaf changes a key when it is performed on `s`. -/
def LeafOp.writes (s : Store) : LeafOp → Bool
  | .range _ => false
  | .put _ => true
  | .deleteRange r => Ordered r.key r.rangeEnd ∧ s.selected r.key r.rangeEnd ≠ []

theorem LeafOp.apply_logs (s : Store) (l : LeafOp) :
    ∃ bs, Logs s (l.apply s) bs ∧ bs.length = if l.writes s then 1 else 0 := by
  cases l with
  | range r => exact ⟨[], Logs.refl s, rfl⟩
  | put r =>
    obtain ⟨b, hb⟩ := Store.put_logs s r.key r.value r.lease r.prevKv r.ignoreValue r.ignoreLease
    exact ⟨[b], hb, rfl⟩
  | deleteRange r =>
    obtain ⟨bs, hbs, hlen⟩ := Store.deleteRange_logs s r.key r.rangeEnd r.prevKv
    exact ⟨bs, hbs, by simpa [LeafOp.writes] using hlen⟩

namespace Store

/-- How many of the leaves change a key when they are performed in order. -/
def writes (s : Store) : List LeafOp → ℕ
  | [] => 0
  | l :: ls => (if l.writes s then 1 else 0) + writes (l.apply s) ls

/-- A sequence of leaves logs one batch for each leaf that changes a key. -/
theorem effect_logs (s : Store) (ls : List LeafOp) :
    ∃ bs, Logs s (s.effect ls) bs ∧ bs.length = s.writes ls := by
  induction ls generalizing s with
  | nil => exact ⟨[], Logs.refl s, rfl⟩
  | cons l ls ih =>
    obtain ⟨bs, hbs, hlen⟩ := l.apply_logs s
    obtain ⟨cs, hcs, hlen'⟩ := ih (l.apply s)
    exact ⟨bs ++ cs, hbs.trans hcs, by rw [List.length_append, hlen, hlen', writes]⟩

/-! ## Lease revocation -/

/-- The deletions that `lease_revoke` performs (store.rs:486-489). -/
def revokeLeaves (le : LeaseEntry) : List LeafOp :=
  le.keys.map fun k => .deleteRange { key := k, rangeEnd := [], prevKv := false }

/-- The store once `leases.remove(&id)` has run. -/
def dropLease (s : Store) (id : ℤ) : Store := { s with leases := s.leases.remove id }

theorem leaseRevoke_of_none {s : Store} {id : ℤ} (h : s.leases.get? id = none) :
    (s.leaseRevoke id).2 = s := by
  simp [leaseRevoke, h]

theorem leaseRevoke_of_some {s : Store} {id : ℤ} {le : LeaseEntry} (h : s.leases.get? id = some le) :
    (s.leaseRevoke id).2 = (s.dropLease id).effect (revokeLeaves le) := by
  simp only [leaseRevoke, h, effect, revokeLeaves, List.foldl_map]
  rfl

/-- Dropping the lease entry touches nothing that is logged. -/
theorem logs_of_dropLease {s s' : Store} {id : ℤ} {bs : List BroadcastBatch}
    (h : Logs (s.dropLease id) s' bs) : Logs s s' bs where
  tx := h.tx
  numbered := h.numbered
  revision := h.revision
  kvs := h.kvs
  justified := h.justified
  nonempty := h.nonempty
  modRevision := h.modRevision
  keysNodup := h.keysNodup
  deletes := h.deletes
  log := h.log
  compactRevision := h.compactRevision

theorem leaseRevoke_logs (s : Store) (id : ℤ) : ∃ bs, Logs s (s.leaseRevoke id).2 bs := by
  cases h : s.leases.get? id with
  | none => exact ⟨[], by rw [leaseRevoke_of_none h]; exact Logs.refl s⟩
  | some le =>
    obtain ⟨bs, hbs, -⟩ := effect_logs (s.dropLease id) (revokeLeaves le)
    exact ⟨bs, by rw [leaseRevoke_of_some h]; exact logs_of_dropLease hbs⟩

/-! ## Requests and runs -/

/-- A request other than a compaction logs what it broadcasts. -/
theorem after_logs (s : Store) (q : Request) (hq : ∀ rev, q ≠ .compact rev) :
    ∃ bs, Logs s (s.after q) bs := by
  cases q with
  | range r => exact ⟨[], by rw [after_range]; exact Logs.refl s⟩
  | put r =>
    obtain ⟨b, hb⟩ := put_logs s r.key r.value r.lease r.prevKv r.ignoreValue r.ignoreLease
    exact ⟨[b], hb⟩
  | deleteRange r =>
    obtain ⟨bs, hbs, -⟩ := deleteRange_logs s r.key r.rangeEnd r.prevKv
    exact ⟨bs, by rwa [after_deleteRange]⟩
  | txn r =>
    obtain ⟨bs, hbs, -⟩ := effect_logs s (s.performed (s.txnLeaves r))
    exact ⟨bs, by rwa [after_txn, txn_effect]⟩
  | compact rev => exact absurd rfl (hq rev)
  | leaseGrant now ttl id =>
    rw [after_leaseGrant]
    rcases leaseGrant_cases s now ttl id with ⟨-, h⟩ | ⟨deadline, -, h⟩
    · exact ⟨[], Logs.of_frame (by rw [h]) (by rw [h]) (by rw [h]) (by rw [h]) (by rw [h])⟩
    · exact ⟨[], Logs.of_frame (by rw [h]) (by rw [h]) (by rw [h]) (by rw [h]) (by rw [h])⟩
  | leaseRevoke id => exact leaseRevoke_logs s id
  | leaseKeepAlive now id =>
    rw [after_leaseKeepAlive]
    rcases leaseKeepalive_cases s now id with h | ⟨le, deadline, -, -, h⟩
    · exact ⟨[], by rw [h]; exact Logs.refl s⟩
    · exact ⟨[], Logs.of_frame (by rw [h]) (by rw [h]) (by rw [h]) (by rw [h]) (by rw [h])⟩
  | leaseTimeToLive now id keys => exact ⟨[], Logs.refl s⟩
  | leaseLeases => exact ⟨[], Logs.refl s⟩

theorem compact_advances (s : Store) (rev : ℤ) : Advances s (s.compact rev).2 [] := by
  unfold compact
  split_ifs <;> exact Advances.of_frame rfl rfl rfl

theorem after_advances (s : Store) (q : Request) : ∃ bs, Advances s (s.after q) bs := by
  by_cases hq : ∀ rev, q ≠ .compact rev
  · obtain ⟨bs, hbs⟩ := after_logs s q hq
    exact ⟨bs, hbs.toAdvances⟩
  · push Not at hq
    obtain ⟨rev, rfl⟩ := hq
    exact ⟨[], compact_advances s rev⟩

/-- Every run advances the store by the batches it broadcasts. -/
theorem run_advances (s : Store) (qs : List Request) : ∃ bs, Advances s (s.run qs) bs := by
  induction qs generalizing s with
  | nil => exact ⟨[], Advances.of_frame rfl rfl rfl⟩
  | cons q qs ih =>
    obtain ⟨bs, hbs⟩ := after_advances s q
    obtain ⟨cs, hcs⟩ := ih (s.after q)
    exact ⟨bs ++ cs, hbs.trans hcs⟩

/-- A reachable store is the replay of everything it ever broadcast. -/
theorem Reachable.advances {s : Store} (h : s.Reachable) : Advances Store.new s s.tx := by
  obtain ⟨qs, rfl⟩ := h
  obtain ⟨bs, hbs⟩ := run_advances Store.new qs
  have htx : (Store.new.run qs).tx = bs := hbs.tx
  rwa [htx]

/-! ## The log -/

/-- Beyond the compacted revision, the log is the broadcast history. -/
def LogOk (s : Store) : Prop :=
  ∀ c, s.compactRevision ≤ c →
    s.log.filter (fun e => e.1 > c) = (s.tx.map BroadcastBatch.entry).filter fun e => e.1 > c

theorem logOk_of_logs {s s' : Store} {bs : List BroadcastBatch} (h : Logs s s' bs)
    (hs : s.LogOk) : s'.LogOk := by
  intro c hc
  rw [h.log, h.tx, List.map_append, List.filter_append, List.filter_append,
    hs c (by rwa [← h.compactRevision])]

theorem compact_logOk {s : Store} (rev : ℤ) (hs : s.LogOk) : (s.compact rev).2.LogOk := by
  unfold compact
  split_ifs with h
  · intro c hc
    simp only at hc ⊢
    rw [List.filter_filter, ← hs c (by omega)]
    refine List.filter_congr fun e _ => ?_
    simp only [Bool.and_eq_decide, decide_eq_true_eq, decide_eq_decide]
    omega
  · exact hs

theorem after_logOk {s : Store} (q : Request) (hs : s.LogOk) : (s.after q).LogOk := by
  by_cases hq : ∀ rev, q ≠ .compact rev
  · obtain ⟨bs, hbs⟩ := after_logs s q hq
    exact logOk_of_logs hbs hs
  · push Not at hq
    obtain ⟨rev, rfl⟩ := hq
    exact compact_logOk rev hs

theorem Reachable.logOk {s : Store} (h : s.Reachable) : s.LogOk :=
  h.invariant (P := LogOk) (fun _ _ => rfl) fun _ q => after_logOk q

end Store

end Kubenyx.EtcdMem
