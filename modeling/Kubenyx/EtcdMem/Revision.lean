import Kubenyx.EtcdMem.LeaseIndex

/-!
# How many revisions a request takes

The header of `store.rs` says that the revision increments once per mutating
operation and that a transaction counts as one. Each put and each deletion that
finds a key takes a revision of its own, also inside a transaction and inside a
lease revocation.

* `oneRevision_iff`: a mutating request takes a single revision, with a single
  log entry and a single broadcast batch, exactly when it performs at most one
  put or non-empty deletion.
-/

namespace Kubenyx.EtcdMem

open Kubenyx.Common

/-- The requests that can change a key. -/
def Request.mutating : Request → Bool
  | .put _ => true
  | .deleteRange _ => true
  | .txn _ => true
  | .leaseRevoke _ => true
  | _ => false

/-- Going from `s` to `s'` is one revision if it changes a key and none if it
    does not: the changed keys carry the new revision, and all events are in one
    log entry and one batch of that revision. -/
structure OneRevision (s s' : Store) : Prop where
  unchanged : (∀ k, s'.kvs.get? k = s.kvs.get? k) →
    s'.revision = s.revision ∧ s'.log = s.log ∧ s'.tx = s.tx
  changed : (∃ k, s'.kvs.get? k ≠ s.kvs.get? k) →
    s'.revision = s.revision + 1 ∧
    (∀ k kv, s'.kvs.get? k ≠ s.kvs.get? k → s'.kvs.get? k = some kv →
      kv.modRevision = s'.revision) ∧
    ∃ events, s'.log = s.log ++ [(s'.revision, events)] ∧
      s'.tx = s.tx ++ [⟨s'.revision, events⟩] ∧
      (∀ e ∈ events, e.kv.modRevision = s'.revision) ∧
      ∀ k, s'.kvs.get? k ≠ s.kvs.get? k ↔ ∃ e ∈ events, e.kv.key = k

/-- Every event of a single batch changes its key. -/
theorem Advances.changes_key {s s' : Store} {b : BroadcastBatch} (hs : s.Reachable)
    (h : Advances s s' [b]) {e : StoredEvent} (he : e ∈ b.events) :
    s'.kvs.get? e.kv.key ≠ s.kvs.get? e.kv.key := by
  have hb : b ∈ [b] := List.mem_singleton_self b
  obtain ⟨pre, post, hsplit⟩ := List.append_of_mem he
  have hnodup := h.keysNodup b hb
  rw [hsplit, List.map_append, List.map_cons, List.nodup_append, List.nodup_cons] at hnodup
  have hpre : ∀ c ∈ pre.map StoredEvent.change, c.key ≠ e.change.key := by
    intro c hc
    obtain ⟨e', he', rfl⟩ := List.mem_map.mp hc
    exact hnodup.2.2 _ (List.mem_map_of_mem he') _ List.mem_cons_self
  have hpost : ∀ c ∈ post.map StoredEvent.change, c.key ≠ e.kv.key := by
    intro c hc hkey
    obtain ⟨e', he', rfl⟩ := List.mem_map.mp hc
    exact hnodup.2.1.1 (List.mem_map.mpr ⟨e', he', hkey⟩)
  have hchanges : changes [b] =
      pre.map StoredEvent.change ++ e.change :: post.map StoredEvent.change := by
    simp [changes, hsplit]
  have hprev : e.prevKv = s.kvs.get? e.kv.key := h.justified.first hchanges hpre
  have hnext : s'.kvs.get? e.kv.key = e.change.next := by
    rw [h.kvs, hchanges, OrdMap.replay_append, OrdMap.replay_cons,
      OrdMap.get?_replay_of_untouched hpost, OrdMap.get?_apply]
    exact if_pos rfl
  rw [hnext, ← hprev, StoredEvent.change]
  cases ht : e.evType with
  | delete =>
    obtain ⟨kv, hkv⟩ := Option.isSome_iff_exists.mp (h.deletes b hb e he ht)
    simp [hkv]
  | put =>
    intro hsame
    -- the new entry carries a revision that no entry of `s` can have
    have hold := (hs.entry (hprev.symm.trans hsame.symm)).2.2
    have hnew := h.modRevision b hb e he
    have := (h.batch_bounds hb).1
    omega

namespace Store

/-- A step that logs its batches is one revision exactly when there is at most
    one batch. -/
theorem oneRevision_of_logs {s s' : Store} {bs : List BroadcastBatch} (hs : s.Reachable)
    (h : Logs s s' bs) : OneRevision s s' ↔ bs.length ≤ 1 := by
  constructor
  · intro hone
    have hrev := h.revision
    by_cases hc : ∃ k, s'.kvs.get? k ≠ s.kvs.get? k
    · have := (hone.changed hc).1
      omega
    · push Not at hc
      have := (hone.unchanged hc).1
      omega
  · intro hlen
    match bs, hlen with
    | [], _ =>
      have hkvs : s'.kvs = s.kvs := h.kvs
      refine ⟨fun _ => ⟨by simpa using h.revision, by simpa using h.log, by simpa using h.tx⟩, ?_⟩
      rintro ⟨k, hk⟩
      rw [hkvs] at hk
      exact absurd rfl hk
    | [b], _ =>
      have hb : b ∈ [b] := List.mem_singleton_self b
      have hrev : s'.revision = s.revision + 1 := by simpa using h.revision
      have hbrev : b.revision = s'.revision := by rw [hrev]; exact h.numbered.1
      have hiff : ∀ k, s'.kvs.get? k ≠ s.kvs.get? k ↔ ∃ e ∈ b.events, e.kv.key = k := by
        intro k
        constructor
        · intro hk
          rcases h.toAdvances.get?_cases k with ⟨-, hsame⟩ | ⟨b', hb', e, he, hek, -⟩
          · exact absurd hsame hk
          · rw [List.mem_singleton] at hb'
            subst hb'
            exact ⟨e, he, hek⟩
        · rintro ⟨e, he, rfl⟩
          exact h.toAdvances.changes_key hs he
      constructor
      · intro hsame
        obtain ⟨e, he⟩ := List.exists_mem_of_ne_nil _ (h.nonempty b hb)
        exact absurd (hsame e.kv.key) ((hiff _).mpr ⟨e, he, rfl⟩)
      · intro _
        refine ⟨hrev, ?_, b.events, ?_, ?_, ?_, hiff⟩
        · intro k kv hk hkv
          rcases h.toAdvances.get?_some_cases hkv with ⟨-, hold⟩ | ⟨-, hlo, hhi, -⟩
          · rw [hkv, hold] at hk
            exact absurd rfl hk
          · omega
        · rw [h.log, List.map_singleton, BroadcastBatch.entry, hbrev]
        · rw [h.tx, ← hbrev]
        · intro e he
          rw [h.modRevision b hb e he, hbrev]
    | _ :: _ :: _, hlen => simp at hlen

/-! ## Counting -/

/-- How many puts and non-empty deletions the request performs. A revocation
    deletes the keys of its lease one by one. -/
def mutations (s : Store) : Request → ℕ
  | .put _ => 1
  | .deleteRange r => s.writes [.deleteRange r]
  | .txn r => s.writes (s.performed (s.txnLeaves r))
  | .leaseRevoke id => ((s.leases.get? id).map fun le => le.keys.length).getD 0
  | _ => 0

theorem writes_revokeLeaves {id : ℤ} {keys : List Bytes} (hn : keys.Nodup) : ∀ {s : Store},
    s.leases.get? id = none →
    (∀ k ∈ keys, ∃ kv, s.kvs.get? k = some kv ∧ kv.lease = id) →
    s.writes (keys.map fun k => .deleteRange { key := k, rangeEnd := [], prevKv := false }) =
      keys.length := by
  induction keys with
  | nil => intro s _ _; rfl
  | cons k keys ih =>
    intro s hid hk
    obtain ⟨hnotin, hn⟩ := List.nodup_cons.mp hn
    obtain ⟨kv, hkv, hlease⟩ := hk k List.mem_cons_self
    obtain ⟨h1, h2⟩ := deleteRange_single (k := k) hid fun kv' hkv' => by
      rw [hkv] at hkv'
      rw [← Option.some.inj hkv', hlease]
    have hwrites : (LeafOp.deleteRange { key := k, rangeEnd := [], prevKv := false }).writes s =
        true := by
      simp [LeafOp.writes, ordered_nil, selected_single, hkv]
    rw [List.map_cons, writes, hwrites, if_pos rfl, LeafOp.apply, List.length_cons,
      ih hn (by rw [h1, hid]), Nat.add_comm]
    intro k' hk'
    rw [h2, if_neg (by rintro rfl; exact hnotin hk')]
    exact hk k' (List.mem_cons_of_mem _ hk')

/-- A mutating request logs one batch for each put and non-empty deletion. -/
theorem after_logs_mutations {s : Store} (hs : s.LeaseInv) (q : Request) (hq : q.mutating = true) :
    ∃ bs, Logs s (s.after q) bs ∧ bs.length = s.mutations q := by
  cases q with
  | put r =>
    obtain ⟨b, hb⟩ := put_logs s r.key r.value r.lease r.prevKv r.ignoreValue r.ignoreLease
    exact ⟨[b], hb, rfl⟩
  | deleteRange r =>
    obtain ⟨bs, hbs, hlen⟩ := effect_logs s [.deleteRange r]
    exact ⟨bs, by rwa [after_deleteRange], hlen⟩
  | txn r =>
    obtain ⟨bs, hbs, hlen⟩ := effect_logs s (s.performed (s.txnLeaves r))
    exact ⟨bs, by rwa [after_txn, txn_effect], hlen⟩
  | leaseRevoke id =>
    rw [after_leaseRevoke]
    cases hle : s.leases.get? id with
    | none => exact ⟨[], by rw [leaseRevoke_of_none hle]; exact Logs.refl s, by simp [mutations, hle]⟩
    | some le =>
      obtain ⟨bs, hbs, hlen⟩ := effect_logs (s.dropLease id) (revokeLeaves le)
      refine ⟨bs, by rw [leaseRevoke_of_some hle]; exact logs_of_dropLease hbs, ?_⟩
      have hcount : (s.dropLease id).writes (revokeLeaves le) = le.keys.length :=
        writes_revokeLeaves (s := s.dropLease id) (hs.1.nodup id le hle)
          (OrdMap.get?_remove_self ..) fun k hk => hs.1.owned id le k hle hk
      simp [hlen, hcount, mutations, hle]
  | range r => cases hq
  | compact rev => cases hq
  | leaseGrant now ttl id => cases hq
  | leaseKeepAlive now id => cases hq
  | leaseTimeToLive now id keys => cases hq
  | leaseLeases => cases hq

/-- A mutating request takes one revision if it changes a key and none if it does
    not, with all its events in one log entry and one batch, exactly when it
    performs at most one put or non-empty deletion. -/
theorem oneRevision_iff {s : Store} (hs : s.Reachable) (q : Request) (hq : q.mutating = true) :
    OneRevision s (s.after q) ↔ s.mutations q ≤ 1 := by
  obtain ⟨bs, hbs, hlen⟩ := after_logs_mutations hs.leaseInv q hq
  rw [oneRevision_of_logs hs hbs, hlen]

/-- A transaction with a put in the branch taken, a put in the other branch and a
    deletion that finds nothing. -/
theorem oneRevision_iff_guarded_put :
    let q : Request := .txn (.mk [⟨CompareResult.equal, CompareTarget.mod, [97], none⟩]
      [.requestPut { key := [97] }, .requestDeleteRange { key := [98] }]
      [.requestPut { key := [97] }, .requestPut { key := [98] }])
    q.mutating = true ∧ (OneRevision Store.new (Store.new.after q) ↔ Store.new.mutations q ≤ 1) :=
  ⟨rfl, oneRevision_iff reachable_new _ rfl⟩

/-- A transaction that puts two keys takes two revisions, and so does revoking a
    lease with two keys. -/
theorem two_mutations_two_revisions :
    let q : Request := .txn (.mk [] [.requestPut { key := [97] }, .requestPut { key := [98] }] [])
    let s := Store.new.run
      [.leaseGrant ⟨1, 0, by decide, by decide⟩ 10 7, .put { key := [97], lease := 7 },
       .put { key := [98], lease := 7 }]
    (Store.new.after q).revision = Store.new.revision + 2 ∧ (Store.new.after q).tx.length = 2 ∧
      ¬ OneRevision Store.new (Store.new.after q) ∧
      s.Reachable ∧ (s.after (.leaseRevoke 7)).revision = s.revision + 2 ∧
      ¬ OneRevision s (s.after (.leaseRevoke 7)) := by
  refine ⟨by decide, by decide, fun h => ?_, ⟨_, rfl⟩, by decide, fun h => ?_⟩
  · exact absurd (h.changed ⟨[97], by decide⟩).1 (by decide)
  · exact absurd (h.changed ⟨[97], by decide⟩).1 (by decide)

end Store

end Kubenyx.EtcdMem
