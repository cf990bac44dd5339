import Kubenyx.EtcdMem.History

/-!
# Leases and their keys

The store keeps the key-to-lease relation twice: in the `lease` field of each
entry and in the key list of each lease.

* `Reachable.leaseIndex`: a listed key is present and carries the lease that
  lists it. This direction holds in every reachable state.
* `leaseRevoke_owns`: so revoking a lease removes only its own keys.
* `noOrphans_of_attaches`: the other direction, that every leased key is listed,
  holds along every run in which puts name live leases and no grant replaces a
  lease that has keys.
* `grantUndisturbing_iff`, `grants_undisturbing_run_iff`: a grant leaves the live
  leases alone exactly when its id is not one of theirs.
-/

namespace Kubenyx.EtcdMem

open Kubenyx.Common

/-- The key lists of the leases are right: every listed key is present with that
    lease, and is listed once. -/
structure LeaseIndex (kvs : OrdMap Bytes Kv) (leases : OrdMap ℤ LeaseEntry) : Prop where
  id_eq : ∀ id le, leases.get? id = some le → le.id = id
  no_zero : leases.get? 0 = none
  owned : ∀ id le k, leases.get? id = some le → k ∈ le.keys →
    ∃ kv, kvs.get? k = some kv ∧ kv.lease = id
  nodup : ∀ id le, leases.get? id = some le → le.keys.Nodup
  ttl_pos : ∀ id le, leases.get? id = some le → 1 ≤ le.grantedTtl

namespace Store

/-! ## Registering and deregistering keys -/

theorem get?_deregister (leases : OrdMap ℤ LeaseEntry) (lease : ℤ) (key : Bytes) (id : ℤ) :
    (deregister leases lease key).get? id =
      if lease ≠ 0 ∧ lease = id then (leases.get? id).map (LeaseEntry.release key)
      else leases.get? id := by
  unfold deregister
  by_cases h0 : lease = 0
  · simp [h0]
  · simp only [h0, ne_eq, not_false_eq_true, if_true, true_and, OrdMap.get?_modify]

theorem get?_register (leases : OrdMap ℤ LeaseEntry) (lease : ℤ) (key : Bytes) (id : ℤ) :
    (register leases lease key).get? id =
      if lease ≠ 0 ∧ lease = id then (leases.get? id).map (LeaseEntry.attach key)
      else leases.get? id := by
  unfold register
  by_cases h0 : lease = 0
  · simp [h0]
  · simp only [h0, ne_eq, not_false_eq_true, if_true, true_and, OrdMap.get?_modify]

/-- Deregistering keeps each lease, with the key possibly off its list. -/
theorem deregister_cases {leases : OrdMap ℤ LeaseEntry} {lease id : ℤ} {key : Bytes}
    {le' : LeaseEntry} (h : (deregister leases lease key).get? id = some le') :
    ∃ le, leases.get? id = some le ∧
      (le' = le.release key ∧ lease = id ∨ le' = le ∧ (lease = 0 ∨ lease ≠ id)) := by
  rw [get?_deregister] at h
  split_ifs at h with hc
  · obtain ⟨le, hle, rfl⟩ := Option.map_eq_some_iff.mp h
    exact ⟨le, hle, Or.inl ⟨rfl, hc.2⟩⟩
  · exact ⟨le', h, Or.inr ⟨rfl, by tauto⟩⟩

theorem mem_release {le : LeaseEntry} {key k : Bytes} :
    k ∈ (le.release key).keys ↔ k ∈ le.keys ∧ k ≠ key := by
  simp [LeaseEntry.release]

theorem mem_attach {le : LeaseEntry} {key k : Bytes} :
    k ∈ (le.attach key).keys ↔ k ∈ le.keys ∨ k = key := by
  unfold LeaseEntry.attach
  split_ifs with h
  · constructor
    · exact Or.inl
    · rintro (hk | rfl)
      · exact hk
      · exact h
  · simp

/-- The lease that an entry records, 0 if there is no entry. -/
def leaseOf (kvs : OrdMap Bytes Kv) (key : Bytes) : ℤ := ((kvs.get? key).map Kv.lease).getD 0

end Store

open Store

namespace LeaseIndex

variable {kvs kvs' : OrdMap Bytes Kv} {leases : OrdMap ℤ LeaseEntry} {key : Bytes}

theorem empty : LeaseIndex OrdMap.empty OrdMap.empty where
  id_eq := by simp
  no_zero := rfl
  owned := by simp
  nodup := by simp
  ttl_pos := by simp

/-- A key is listed only under the lease of its entry. -/
theorem leaseOf_eq (h : LeaseIndex kvs leases) {id : ℤ} {le : LeaseEntry} {k : Bytes}
    (hle : leases.get? id = some le) (hk : k ∈ le.keys) : leaseOf kvs k = id := by
  obtain ⟨kv, hkv, hid⟩ := h.owned id le k hle hk
  simp [leaseOf, hkv, hid]

theorem id_ne_zero (h : LeaseIndex kvs leases) {id : ℤ} {le : LeaseEntry}
    (hle : leases.get? id = some le) : id ≠ 0 := by
  rintro rfl
  rw [h.no_zero] at hle
  cases hle

/-- After deregistering a key from its lease no lease lists it. -/
theorem unlisted_deregister (h : LeaseIndex kvs leases) {id : ℤ} {le : LeaseEntry}
    (hle : (deregister leases (leaseOf kvs key) key).get? id = some le) : key ∉ le.keys := by
  obtain ⟨le₀, hle₀, ⟨rfl, -⟩ | ⟨rfl, hne⟩⟩ := deregister_cases hle
  · rw [mem_release]
    exact fun hk => hk.2 rfl
  · intro hk
    have hlease := h.leaseOf_eq hle₀ hk
    have := h.id_ne_zero hle₀
    omega

/-- Deregistering a key allows its entry to change in any way. -/
theorem deregister (h : LeaseIndex kvs leases) (hkvs : ∀ k, k ≠ key → kvs'.get? k = kvs.get? k) :
    LeaseIndex kvs' (deregister leases (leaseOf kvs key) key) where
  id_eq id le hle := by
    obtain ⟨le₀, hle₀, ⟨rfl, -⟩ | ⟨rfl, -⟩⟩ := deregister_cases hle
    · exact h.id_eq id le₀ hle₀
    · exact h.id_eq id le hle₀
  no_zero := by
    rw [get?_deregister, if_neg (by omega), h.no_zero]
  owned id le k hle hk := by
    have hkey : k ≠ key := by
      rintro rfl
      exact h.unlisted_deregister hle hk
    rw [hkvs k hkey]
    obtain ⟨le₀, hle₀, ⟨rfl, -⟩ | ⟨rfl, -⟩⟩ := deregister_cases hle
    · exact h.owned id le₀ k hle₀ (mem_release.mp hk).1
    · exact h.owned id le k hle₀ hk
  nodup id le hle := by
    obtain ⟨le₀, hle₀, ⟨rfl, -⟩ | ⟨rfl, -⟩⟩ := deregister_cases hle
    · exact (h.nodup id le₀ hle₀).filter _
    · exact h.nodup id le hle₀
  ttl_pos id le hle := by
    obtain ⟨le₀, hle₀, ⟨rfl, -⟩ | ⟨rfl, -⟩⟩ := deregister_cases hle
    · exact h.ttl_pos id le₀ hle₀
    · exact h.ttl_pos id le hle₀

/-- Registering a key that no lease lists under the lease of its entry. -/
theorem register (h : LeaseIndex kvs leases)
    (hun : ∀ id le, leases.get? id = some le → key ∉ le.keys) {entry : Kv}
    (hentry : kvs.get? key = some entry) :
    LeaseIndex kvs (register leases entry.lease key) where
  id_eq id le hle := by
    rw [get?_register] at hle
    split_ifs at hle with hc
    · obtain ⟨le₀, hle₀, rfl⟩ := Option.map_eq_some_iff.mp hle
      have := h.id_eq id le₀ hle₀
      unfold LeaseEntry.attach
      split_ifs <;> exact this
    · exact h.id_eq id le hle
  no_zero := by
    rw [get?_register, if_neg (by omega), h.no_zero]
  owned id le k hle hk := by
    rw [get?_register] at hle
    split_ifs at hle with hc
    · obtain ⟨le₀, hle₀, rfl⟩ := Option.map_eq_some_iff.mp hle
      rcases mem_attach.mp hk with hk | rfl
      · exact h.owned id le₀ k hle₀ hk
      · exact ⟨entry, hentry, hc.2⟩
    · exact h.owned id le k hle hk
  nodup id le hle := by
    rw [get?_register] at hle
    split_ifs at hle with hc
    · obtain ⟨le₀, hle₀, rfl⟩ := Option.map_eq_some_iff.mp hle
      have hnotin := hun id le₀ hle₀
      rw [LeaseEntry.attach, if_neg hnotin]
      exact (h.nodup id le₀ hle₀).append (List.nodup_singleton key)
        (by simpa [List.disjoint_singleton] using hnotin)
    · exact h.nodup id le hle
  ttl_pos id le hle := by
    rw [get?_register] at hle
    split_ifs at hle with hc
    · obtain ⟨le₀, hle₀, rfl⟩ := Option.map_eq_some_iff.mp hle
      have := h.ttl_pos id le₀ hle₀
      unfold LeaseEntry.attach
      split_ifs <;> exact this
    · exact h.ttl_pos id le hle

theorem remove (h : LeaseIndex kvs leases) (id : ℤ) : LeaseIndex kvs (leases.remove id) := by
  have hsub : ∀ {id' le}, (leases.remove id).get? id' = some le → leases.get? id' = some le := by
    intro id' le hle
    rw [OrdMap.get?_remove] at hle
    split_ifs at hle
    exact hle
  exact
    { id_eq := fun id' le hle => h.id_eq id' le (hsub hle)
      no_zero := by
        rw [OrdMap.get?_remove, h.no_zero]
        split_ifs <;> rfl
      owned := fun id' le k hle => h.owned id' le k (hsub hle)
      nodup := fun id' le hle => h.nodup id' le (hsub hle)
      ttl_pos := fun id' le hle => h.ttl_pos id' le (hsub hle) }

/-- Granting a lease installs an empty key list. -/
theorem grant (h : LeaseIndex kvs leases) {id ttl : ℤ} (hid : id ≠ 0) (httl : 1 ≤ ttl)
    (deadline : Instant) : LeaseIndex kvs (leases.insert id ⟨id, ttl, deadline, []⟩) := by
  have hcases : ∀ {id' le}, (leases.insert id ⟨id, ttl, deadline, []⟩).get? id' = some le →
      (id' = id ∧ le = ⟨id, ttl, deadline, []⟩) ∨ leases.get? id' = some le := by
    intro id' le hle
    rw [OrdMap.get?_insert] at hle
    split_ifs at hle with hc
    · exact Or.inl ⟨hc.symm, (Option.some.inj hle).symm⟩
    · exact Or.inr hle
  refine ⟨?_, ?_, ?_, ?_, ?_⟩
  · intro id' le hle
    rcases hcases hle with ⟨rfl, rfl⟩ | hle
    · rfl
    · exact h.id_eq id' le hle
  · rw [OrdMap.get?_insert, if_neg hid, h.no_zero]
  · intro id' le k hle hk
    rcases hcases hle with ⟨rfl, rfl⟩ | hle
    · cases hk
    · exact h.owned id' le k hle hk
  · intro id' le hle
    rcases hcases hle with ⟨rfl, rfl⟩ | hle
    · exact List.nodup_nil
    · exact h.nodup id' le hle
  · intro id' le hle
    rcases hcases hle with ⟨rfl, rfl⟩ | hle
    · exact httl
    · exact h.ttl_pos id' le hle

/-- Moving a deadline leaves the key lists alone. -/
theorem renew (h : LeaseIndex kvs leases) (id : ℤ) (deadline : Instant) :
    LeaseIndex kvs (leases.modify id fun le => { le with deadline := deadline }) := by
  have hcases : ∀ {id' le'},
      (leases.modify id fun le => { le with deadline := deadline }).get? id' = some le' →
      ∃ le, leases.get? id' = some le ∧ le'.id = le.id ∧ le'.keys = le.keys ∧
        le'.grantedTtl = le.grantedTtl := by
    intro id' le' hle
    rw [OrdMap.get?_modify] at hle
    split_ifs at hle
    · obtain ⟨le, hold, rfl⟩ := Option.map_eq_some_iff.mp hle
      exact ⟨le, hold, rfl, rfl, rfl⟩
    · exact ⟨le', hle, rfl, rfl, rfl⟩
  refine ⟨?_, ?_, ?_, ?_, ?_⟩
  · intro id' le' hle
    obtain ⟨le, hle, h1, -, -⟩ := hcases hle
    rw [h1, h.id_eq id' le hle]
  · rw [OrdMap.get?_modify, h.no_zero]
    split_ifs <;> rfl
  · intro id' le' k hle hk
    obtain ⟨le, hle, -, h2, -⟩ := hcases hle
    exact h.owned id' le k hle (by rwa [← h2])
  · intro id' le' hle
    obtain ⟨le, hle, -, h2, -⟩ := hcases hle
    rw [h2]
    exact h.nodup id' le hle
  · intro id' le' hle
    obtain ⟨le, hle, -, -, h3⟩ := hcases hle
    rw [h3]
    exact h.ttl_pos id' le hle

end LeaseIndex

namespace Store

/-! ## The index along runs -/

/-- The lease invariant of a store. -/
def LeaseInv (s : Store) : Prop := LeaseIndex s.kvs s.leases ∧ 1 ≤ s.nextLeaseId

theorem leaseInv_new : LeaseInv Store.new := ⟨LeaseIndex.empty, le_rfl⟩

theorem leaseInv_put {s : Store} (h : s.LeaseInv) (key value : Bytes) (lease : ℤ)
    (want ignoreValue ignoreLease : Bool) :
    (s.put key value lease want ignoreValue ignoreLease).2.LeaseInv := by
  refine ⟨?_, h.2⟩
  simp only [put, emit]
  refine (h.1.deregister fun k hk => ?_).register ?_ (OrdMap.get?_insert_self ..)
  · rw [OrdMap.get?_insert, if_neg (Ne.symm hk)]
  · exact fun id le hle => h.1.unlisted_deregister hle

/-- Removing an entry and taking its key off its lease keeps the index right. -/
theorem leaseIndex_deleteEntry {kvs : OrdMap Bytes Kv} {leases : OrdMap ℤ LeaseEntry} {k : Bytes}
    {old : Kv} (hk : kvs.get? k = some old) (h : LeaseIndex kvs leases) :
    LeaseIndex (kvs.remove k) (deregister leases old.lease k) := by
  have hlease : leaseOf kvs k = old.lease := by simp [leaseOf, hk]
  rw [← hlease]
  refine h.deregister fun k' hk' => ?_
  rw [OrdMap.get?_remove, if_neg (Ne.symm hk')]

theorem leaseInv_deleteRange {s : Store} (h : s.LeaseInv) (key rangeEnd : Bytes) (want : Bool) :
    (s.deleteRange key rangeEnd want).2.LeaseInv := by
  refine ⟨deleteRange_invariant (fun _ _ _ _ => leaseIndex_deleteEntry) h.1 key rangeEnd want, ?_⟩
  rw [deleteRange_store]
  split_ifs <;> exact h.2

theorem leaseInv_effect {s : Store} (h : s.LeaseInv) (ls : List LeafOp) : (s.effect ls).LeaseInv :=
  effect_invariant (P := LeaseInv) (fun _ _ h => leaseInv_put h ..)
    (fun _ _ h => leaseInv_deleteRange h ..) h ls

theorem leaseInv_dropLease {s : Store} (h : s.LeaseInv) (id : ℤ) : (s.dropLease id).LeaseInv :=
  ⟨h.1.remove id, h.2⟩

theorem actualId_ne_zero {s : Store} (h : s.LeaseInv) (id : ℤ) : s.actualId id ≠ 0 := by
  have := h.2
  unfold actualId
  split_ifs <;> omega

theorem leaseInv_after {s : Store} (q : Request) (h : s.LeaseInv) : (s.after q).LeaseInv := by
  cases q with
  | range r => rwa [after_range]
  | put r => exact leaseInv_put h r.key r.value r.lease r.prevKv r.ignoreValue r.ignoreLease
  | deleteRange r =>
    rw [after_deleteRange]
    exact leaseInv_deleteRange h ..
  | txn r =>
    rw [after_txn, txn_effect]
    exact leaseInv_effect h _
  | compact rev =>
    rw [after_compact, compact]
    split_ifs <;> exact h
  | leaseGrant now ttl id =>
    have hnext : 1 ≤ if id = 0 then s.nextLeaseId + 1 else s.nextLeaseId := by
      have := h.2
      split_ifs <;> omega
    rw [after_leaseGrant]
    rcases leaseGrant_cases s now ttl id with ⟨-, he⟩ | ⟨deadline, -, he⟩
    · rw [he]
      exact ⟨h.1, hnext⟩
    · rw [he]
      exact ⟨h.1.grant (actualId_ne_zero h id) (by omega) deadline, hnext⟩
  | leaseRevoke id =>
    rw [after_leaseRevoke]
    cases hle : s.leases.get? id with
    | none => rwa [leaseRevoke_of_none hle]
    | some le =>
      rw [leaseRevoke_of_some hle]
      exact leaseInv_effect (leaseInv_dropLease h id) _
  | leaseKeepAlive now id =>
    rw [after_leaseKeepAlive]
    rcases leaseKeepalive_cases s now id with he | ⟨le, deadline, -, -, he⟩
    · rwa [he]
    · rw [he]
      exact ⟨h.1.renew id deadline, h.2⟩
  | leaseTimeToLive now id keys => exact h
  | leaseLeases => exact h

theorem Reachable.leaseInv {s : Store} (h : s.Reachable) : s.LeaseInv :=
  h.invariant leaseInv_new fun _ q => leaseInv_after q

theorem Reachable.leaseIndex {s : Store} (h : s.Reachable) : LeaseIndex s.kvs s.leases :=
  h.leaseInv.1

/-! ## Revoking a lease -/

theorem selected_single (s : Store) (k : Bytes) :
    s.selected k [] = (s.kvs.get? k).toList.map fun _ => k := by
  rw [← map_fst_filter_interval]
  simp only [inInterval_nil]
  rw [filter_key_eq, List.map_map]
  rfl

/-- Deleting a single key that carries the lease `id`, once the lease entry is
    gone: the key goes, the leases stay. -/
theorem deleteRange_single {s : Store} {id : ℤ} {k : Bytes} (hid : s.leases.get? id = none)
    (hk : ∀ kv, s.kvs.get? k = some kv → kv.lease = id) :
    (s.deleteRange k [] false).2.leases = s.leases ∧
      ∀ k', (s.deleteRange k [] false).2.kvs.get? k' = if k = k' then none else s.kvs.get? k' := by
  refine ⟨?_, fun k' => by simp [deleteRange_get?, ordered_nil, eq_comm]⟩
  rw [deleteRange_store, selected_single]
  cases hget : s.kvs.get? k with
  | none => simp
  | some kv =>
    have hdereg : deregister s.leases id k = s.leases := by
      refine OrdMap.ext_get? fun id' => ?_
      rw [get?_deregister]
      split_ifs with h
      · rw [← h.2, hid]
        rfl
      · rfl
    simp [ordered_nil, deleteKeys, deleteBody, emit, hget, hk kv hget, hdereg]

theorem revokeLeaves_effect {id : ℤ} {le : LeaseEntry} : ∀ {s : Store}, s.leases.get? id = none →
    (∀ k ∈ le.keys, ∀ kv, s.kvs.get? k = some kv → kv.lease = id) →
    (s.effect (revokeLeaves le)).leases = s.leases ∧
      ∀ k, (s.effect (revokeLeaves le)).kvs.get? k = if k ∈ le.keys then none else s.kvs.get? k := by
  unfold revokeLeaves
  induction le.keys with
  | nil => intro s _ _; simp
  | cons k keys ih =>
    intro s hid hk
    obtain ⟨h1, h2⟩ := deleteRange_single hid (hk k List.mem_cons_self)
    obtain ⟨h3, h4⟩ := ih (s := (s.deleteRange k [] false).2) (by rw [h1, hid]) (by
      intro k' hk' kv hkv
      rw [h2] at hkv
      split_ifs at hkv
      exact hk k' (List.mem_cons_of_mem _ hk') kv hkv)
    rw [List.map_cons, effect_cons, LeafOp.apply]
    refine ⟨by rw [h3, h1], fun k' => ?_⟩
    rw [h4, h2]
    by_cases h5 : k' ∈ keys
    · simp [h5]
    · by_cases h6 : k = k'
      · simp [h6]
      · simp [h5, h6, Ne.symm h6]

/-- What revoking a live lease does: the lease and the keys it lists go,
    everything else stays. -/
theorem leaseRevoke_spec {s : Store} (h : s.LeaseInv) {id : ℤ} {le : LeaseEntry}
    (hle : s.leases.get? id = some le) :
    (s.leaseRevoke id).2.leases = s.leases.remove id ∧
      ∀ k, (s.leaseRevoke id).2.kvs.get? k = if k ∈ le.keys then none else s.kvs.get? k := by
  rw [leaseRevoke_of_some hle]
  refine revokeLeaves_effect (s := s.dropLease id) (OrdMap.get?_remove_self ..) ?_
  intro k hk kv hkv
  obtain ⟨kv', hkv', hid⟩ := h.1.owned id le k hle hk
  have : kv' = kv := Option.some.inj (hkv'.symm.trans hkv)
  rw [← this, hid]

/-- Every listed key is present under the lease that lists it, is listed once and
    under no other lease; so revoking a lease removes only entries of that
    lease, and leaves every other entry and every other lease as it was. -/
theorem leaseRevoke_owns {s : Store} (hs : s.Reachable) :
    (∀ id le k, s.leases.get? id = some le → k ∈ le.keys →
      (∃ kv, s.kvs.get? k = some kv ∧ kv.lease = id) ∧ le.keys.count k = 1 ∧
        ∀ id' le', s.leases.get? id' = some le' → k ∈ le'.keys → id' = id) ∧
    ∀ id,
      (∀ k, (s.leaseRevoke id).2.kvs.get? k = s.kvs.get? k ∨
        (s.leaseRevoke id).2.kvs.get? k = none ∧
          ∃ kv, s.kvs.get? k = some kv ∧ kv.lease = id) ∧
      ∀ id', id' ≠ id → (s.leaseRevoke id).2.leases.get? id' = s.leases.get? id' := by
  have h := hs.leaseIndex
  refine ⟨fun id le k hle hk => ⟨h.owned id le k hle hk, ?_, ?_⟩, fun id => ?_⟩
  · exact List.count_eq_one_of_mem (h.nodup id le hle) hk
  · intro id' le' hle' hk'
    rw [← h.leaseOf_eq hle hk, h.leaseOf_eq hle' hk']
  · cases hle : s.leases.get? id with
    | none =>
      rw [leaseRevoke_of_none hle]
      exact ⟨fun k => Or.inl rfl, fun _ _ => rfl⟩
    | some le =>
      obtain ⟨h1, h2⟩ := leaseRevoke_spec hs.leaseInv hle
      refine ⟨fun k => ?_, fun id' hid' => ?_⟩
      · rw [h2]
        by_cases hk : k ∈ le.keys
        · exact Or.inr ⟨if_pos hk, h.owned id le k hle hk⟩
        · exact Or.inl (if_neg hk)
      · rw [h1, OrdMap.get?_remove, if_neg (Ne.symm hid')]

/-- Two leases with a key each, a key moved from one to the other. -/
theorem leaseRevoke_owns_moved_key :
    let s := Store.new.run
      [.leaseGrant ⟨1, 0, by decide, by decide⟩ 10 7, .leaseGrant ⟨1, 0, by decide, by decide⟩ 10 8,
       .put { key := [97], lease := 7 }, .put { key := [97], lease := 8 },
       .put { key := [98], lease := 7 }]
    (∀ id le k, s.leases.get? id = some le → k ∈ le.keys →
      (∃ kv, s.kvs.get? k = some kv ∧ kv.lease = id) ∧ le.keys.count k = 1 ∧
        ∀ id' le', s.leases.get? id' = some le' → k ∈ le'.keys → id' = id) ∧
    ∀ id,
      (∀ k, (s.leaseRevoke id).2.kvs.get? k = s.kvs.get? k ∨
        (s.leaseRevoke id).2.kvs.get? k = none ∧
          ∃ kv, s.kvs.get? k = some kv ∧ kv.lease = id) ∧
      ∀ id', id' ≠ id → (s.leaseRevoke id).2.leases.get? id' = s.leases.get? id' :=
  leaseRevoke_owns ⟨_, rfl⟩

/-! ## Leased keys that no lease lists -/

/-- Every entry with a lease is on the key list of that lease. -/
def NoOrphans (s : Store) : Prop :=
  ∀ k kv, s.kvs.get? k = some kv → kv.lease ≠ 0 →
    ∃ le, s.leases.get? kv.lease = some le ∧ k ∈ le.keys

/-- The put names no lease, a live one, or keeps the lease of the entry. -/
def putAttaches (s : Store) (r : PutRequest) : Bool :=
  r.ignoreLease || r.lease = 0 || (s.leases.get? r.lease).isSome

/-- Every put among the leaves attaches on the store it is performed on. -/
def leavesAttach (s : Store) : List LeafOp → Bool
  | [] => true
  | .put r :: ls => putAttaches s r && leavesAttach ((LeafOp.put r).apply s) ls
  | l :: ls => leavesAttach (l.apply s) ls

/-- The request attaches no key to a lease that is not live, and grants no lease
    in place of a live one that has keys. -/
def attaches (s : Store) : Request → Bool
  | .put r => putAttaches s r
  | .txn r => leavesAttach s (s.performed (s.txnLeaves r))
  | .leaseGrant now ttl id =>
    (now.checkedAddSecs (max ttl 1).toNat).isNone ||
      ((s.leases.get? (s.actualId id)).map LeaseEntry.keys).getD [] = []
  | _ => true

/-- Every request of the run attaches. -/
def runAttaches (s : Store) : List Request → Bool
  | [] => true
  | q :: qs => attaches s q && runAttaches (s.after q) qs

theorem mem_keys_deregister {leases : OrdMap ℤ LeaseEntry} {lease id : ℤ} {key k : Bytes}
    {le : LeaseEntry} (hle : leases.get? id = some le) (hk : k ∈ le.keys) (hne : k ≠ key) :
    ∃ le', (deregister leases lease key).get? id = some le' ∧ k ∈ le'.keys := by
  rw [get?_deregister, hle]
  split_ifs
  · exact ⟨_, rfl, mem_release.mpr ⟨hk, hne⟩⟩
  · exact ⟨le, rfl, hk⟩

theorem mem_keys_register {leases : OrdMap ℤ LeaseEntry} {lease id : ℤ} {key k : Bytes}
    {le : LeaseEntry} (hle : leases.get? id = some le) (hk : k ∈ le.keys) :
    ∃ le', (register leases lease key).get? id = some le' ∧ k ∈ le'.keys := by
  rw [get?_register, hle]
  split_ifs
  · exact ⟨_, rfl, mem_attach.mpr (Or.inl hk)⟩
  · exact ⟨le, rfl, hk⟩

/-- The lease of the entry that a put writes (`use_lease`, store.rs:173-177). -/
def useLease (s : Store) (r : PutRequest) : ℤ :=
  if r.ignoreLease then leaseOf s.kvs r.key else r.lease

/-- The entry that a put writes carries the lease it chose. -/
theorem put_kvs (s : Store) (r : PutRequest) :
    ∃ entry : Kv, entry.lease = s.useLease r ∧
      (s.put r.key r.value r.lease r.prevKv r.ignoreValue r.ignoreLease).2.kvs =
        s.kvs.insert r.key entry := by
  refine ⟨_, ?_, rfl⟩
  rfl

theorem put_leases (s : Store) (r : PutRequest) :
    (s.put r.key r.value r.lease r.prevKv r.ignoreValue r.ignoreLease).2.leases =
      register (deregister s.leases (leaseOf s.kvs r.key) r.key) (s.useLease r) r.key := rfl

/-- The lease that an attaching put records is 0 or live. -/
theorem useLease_live {s : Store} (h : s.NoOrphans) {r : PutRequest}
    (hr : putAttaches s r = true) (hne : s.useLease r ≠ 0) :
    ∃ le, s.leases.get? (s.useLease r) = some le := by
  unfold useLease at *
  split_ifs at * with hi
  · cases hprev : s.kvs.get? r.key with
    | none => simp [leaseOf, hprev] at hne
    | some prev =>
      have hlease : leaseOf s.kvs r.key = prev.lease := by simp [leaseOf, hprev]
      rw [hlease] at hne ⊢
      obtain ⟨le, hle, -⟩ := h r.key prev hprev hne
      exact ⟨le, hle⟩
  · simp only [putAttaches, hi, Bool.false_or, Bool.or_eq_true, decide_eq_true_eq, hne, false_or,
      Option.isSome_iff_exists] at hr
    exact hr

theorem noOrphans_put {s : Store} (h : s.NoOrphans) (r : PutRequest) (hr : putAttaches s r = true) :
    NoOrphans (s.put r.key r.value r.lease r.prevKv r.ignoreValue r.ignoreLease).2 := by
  obtain ⟨entry, hentry, hkvs⟩ := put_kvs s r
  intro k kv hk hl
  rw [hkvs, OrdMap.get?_insert] at hk
  rw [put_leases]
  by_cases hkey : r.key = k
  · -- the entry just written: its lease is live, so the key was put on its list
    rw [if_pos hkey, Option.some.injEq] at hk
    subst hk hkey
    rw [hentry] at hl ⊢
    obtain ⟨le, hle⟩ := useLease_live h hr hl
    rw [get?_register, if_pos ⟨hl, rfl⟩, get?_deregister, hle]
    split_ifs
    · exact ⟨_, rfl, mem_attach.mpr (Or.inr rfl)⟩
    · exact ⟨_, rfl, mem_attach.mpr (Or.inr rfl)⟩
  · rw [if_neg hkey] at hk
    obtain ⟨le, hle, hmem⟩ := h k kv hk hl
    obtain ⟨le₁, hle₁, hmem₁⟩ := mem_keys_deregister hle hmem (Ne.symm hkey)
    exact mem_keys_register hle₁ hmem₁

theorem noOrphans_deleteRange {s : Store} (h : s.NoOrphans) (key rangeEnd : Bytes) (want : Bool) :
    (s.deleteRange key rangeEnd want).2.NoOrphans := by
  refine deleteRange_invariant (P := fun kvs leases => ∀ k kv, kvs.get? k = some kv →
    kv.lease ≠ 0 → ∃ le, leases.get? kv.lease = some le ∧ k ∈ le.keys) ?_ h key rangeEnd want
  intro kvs leases key old _ h k kv hk hl
  rw [OrdMap.get?_remove] at hk
  split_ifs at hk with hkey
  obtain ⟨le, hle, hmem⟩ := h k kv hk hl
  exact mem_keys_deregister hle hmem (Ne.symm hkey)

theorem noOrphans_effect {s : Store} (h : s.NoOrphans) (ls : List LeafOp)
    (hls : leavesAttach s ls = true) : (s.effect ls).NoOrphans := by
  induction ls generalizing s with
  | nil => exact h
  | cons l ls ih =>
    cases l with
    | range r => exact ih h hls
    | put r =>
      rw [leavesAttach, Bool.and_eq_true] at hls
      exact ih (noOrphans_put h r hls.1) hls.2
    | deleteRange r => exact ih (noOrphans_deleteRange h r.key r.rangeEnd r.prevKv) hls

theorem noOrphans_leaseRevoke {s : Store} (hs : s.LeaseInv) (h : s.NoOrphans) (id : ℤ) :
    (s.leaseRevoke id).2.NoOrphans := by
  cases hle : s.leases.get? id with
  | none => rwa [leaseRevoke_of_none hle]
  | some le =>
    obtain ⟨h1, h2⟩ := leaseRevoke_spec hs hle
    intro k kv hk hl
    rw [h2] at hk
    split_ifs at hk with hmem
    obtain ⟨le', hle', hmem'⟩ := h k kv hk hl
    -- the entry survived, so its lease is another one
    have hne : id ≠ kv.lease := by
      rintro rfl
      rw [hle] at hle'
      obtain rfl := Option.some.inj hle'
      exact hmem hmem'
    rw [h1, OrdMap.get?_remove, if_neg hne]
    exact ⟨le', hle', hmem'⟩

theorem noOrphans_after {s : Store} (hs : s.LeaseInv) (h : s.NoOrphans) (q : Request)
    (hq : attaches s q = true) : (s.after q).NoOrphans := by
  cases q with
  | range r => rwa [after_range]
  | put r => exact noOrphans_put h r hq
  | deleteRange r =>
    rw [after_deleteRange]
    exact noOrphans_deleteRange h r.key r.rangeEnd r.prevKv
  | txn r =>
    rw [after_txn, txn_effect]
    exact noOrphans_effect h _ hq
  | compact rev =>
    rw [after_compact, compact]
    split_ifs <;> exact h
  | leaseGrant now ttl id =>
    rw [after_leaseGrant]
    rcases leaseGrant_cases s now ttl id with ⟨-, he⟩ | ⟨deadline, hd, he⟩
    · rw [he]
      exact h
    · rw [he]
      intro k kv hk hl
      obtain ⟨le, hle, hmem⟩ := h k kv hk hl
      have hne : s.actualId id ≠ kv.lease := by
        intro heq
        simp only [attaches, hd, Option.isNone_some, Bool.false_or, heq, hle, Option.map_some,
          Option.getD_some, decide_eq_true_eq] at hq
        rw [hq] at hmem
        cases hmem
      simp only [OrdMap.get?_insert, if_neg hne]
      exact ⟨le, hle, hmem⟩
  | leaseRevoke id => exact noOrphans_leaseRevoke hs h id
  | leaseKeepAlive now id =>
    rw [after_leaseKeepAlive]
    rcases leaseKeepalive_cases s now id with he | ⟨le, deadline, -, -, he⟩
    · rwa [he]
    · rw [he]
      intro k kv hk hl
      obtain ⟨le, hle, hmem⟩ := h k kv hk hl
      simp only [OrdMap.get?_modify, hle]
      split_ifs
      · exact ⟨_, rfl, hmem⟩
      · exact ⟨le, rfl, hmem⟩
  | leaseTimeToLive now id keys => exact h
  | leaseLeases => exact h

theorem noOrphans_run {s : Store} (hs : s.LeaseInv) (h : s.NoOrphans) (qs : List Request)
    (hqs : runAttaches s qs = true) : (s.run qs).NoOrphans := by
  induction qs generalizing s with
  | nil => exact h
  | cons q qs ih =>
    rw [runAttaches, Bool.and_eq_true] at hqs
    exact ih (leaseInv_after q hs) (noOrphans_after hs h q hqs.1) hqs.2

/-- Along every run whose puts name live leases and whose grants replace no lease
    that has keys, every leased key is on the list of its lease, and revoking a
    lease leaves no key of that lease behind. -/
theorem noOrphans_of_attaches (qs : List Request) (hqs : runAttaches Store.new qs = true) :
    (Store.new.run qs).NoOrphans ∧
      ∀ id, id ≠ 0 → ∀ k kv, ((Store.new.run qs).leaseRevoke id).2.kvs.get? k = some kv →
        kv.lease ≠ id := by
  have hinv : (Store.new.run qs).LeaseInv := Reachable.leaseInv ⟨qs, rfl⟩
  have hno : (Store.new.run qs).NoOrphans :=
    noOrphans_run leaseInv_new (fun k kv hk => by simp [Store.new] at hk) qs hqs
  refine ⟨hno, fun id hid k kv hk heq => ?_⟩
  subst heq
  obtain ⟨le, hle, -⟩ := noOrphans_leaseRevoke hinv hno kv.lease k kv hk hid
  cases hlive : (Store.new.run qs).leases.get? kv.lease with
  | none =>
    rw [leaseRevoke_of_none hlive, hlive] at hle
    cases hle
  | some le' =>
    rw [(leaseRevoke_spec hinv hlive).1, OrdMap.get?_remove_self] at hle
    cases hle

/-- A lease is granted, gets a key through a transaction, and the key is moved to
    a second lease by a put that keeps the value. -/
theorem noOrphans_of_attaches_moved_key :
    let qs : List Request :=
      [.leaseGrant ⟨1, 0, by decide, by decide⟩ 10 7, .leaseGrant ⟨1, 0, by decide, by decide⟩ 10 0,
       .txn (.mk [] [.requestPut { key := [97], value := [1], lease := 7 }] []),
       .put { key := [97], lease := 1, ignoreValue := true }, .leaseRevoke 7]
    (Store.new.run qs).NoOrphans ∧
      ∀ id, id ≠ 0 → ∀ k kv, ((Store.new.run qs).leaseRevoke id).2.kvs.get? k = some kv →
        kv.lease ≠ id :=
  noOrphans_of_attaches _ (by decide)

/-- A key put under a live lease is orphaned when the lease id is granted again,
    and survives the revocation of that id; so does a key put under an id that
    was never granted. -/
theorem regrant_orphans_key :
    let s := Store.new.run
      [.leaseGrant ⟨1, 0, by decide, by decide⟩ 10 7, .put { key := [97], lease := 7 },
       .leaseGrant ⟨2, 0, by decide, by decide⟩ 10 7]
    let t := Store.new.run [.put { key := [97], lease := 5 }]
    ¬ s.NoOrphans ∧ (((s.leaseRevoke 7).2.kvs.get? [97]).map Kv.lease) = some 7 ∧
      ¬ t.NoOrphans ∧ (((t.leaseRevoke 5).2.kvs.get? [97]).map Kv.lease) = some 5 := by
  refine ⟨fun h => ?_, by decide, fun h => ?_, by decide⟩
  · obtain ⟨le, hle, hmem⟩ := h [97] _ rfl (by decide)
    obtain rfl := Option.some.inj hle
    cases hmem
  · obtain ⟨le, hle, -⟩ := h [97] _ rfl (by decide)
    cases hle

/-! ## Granting a lease -/

/-- The grant leaves every live lease with its keys, its granted TTL and its
    deadline, and an id that the store chose itself was not live. -/
structure GrantUndisturbing (s : Store) (now : Instant) (ttl id : ℤ) : Prop where
  frame : ∀ id' le, s.leases.get? id' = some le →
    ∃ le', (s.leaseGrant now ttl id).2.leases.get? id' = some le' ∧ le'.keys = le.keys ∧
      le'.grantedTtl = le.grantedTtl ∧ le'.deadline = le.deadline
  fresh : id = 0 → ∀ hdr id' ttl', (s.leaseGrant now ttl id).1 = .ok (hdr, id', ttl') →
    s.leases.get? id' = none

/-- The lease that the grant asks for, if it is live, is already what it asks for:
    a lease named by the client, without keys, with that TTL and that deadline. -/
def grantFits (s : Store) (now : Instant) (ttl id : ℤ) : Prop :=
  ∀ le, s.leases.get? (s.actualId id) = some le →
    id ≠ 0 ∧ le.keys = [] ∧ le.grantedTtl = max ttl 1 ∧
      now.checkedAddSecs (max ttl 1).toNat = some le.deadline

theorem leaseGrant_ok {s : Store} {now deadline : Instant} {ttl : ℤ} (id : ℤ)
    (hd : now.checkedAddSecs (max ttl 1).toNat = some deadline) :
    ∃ hdr, (s.leaseGrant now ttl id).1 = .ok (hdr, s.actualId id, max ttl 1) := by
  simp only [leaseGrant, hd]
  exact ⟨_, rfl⟩

theorem leaseGrant_error {s : Store} {now : Instant} {ttl : ℤ} (id : ℤ)
    (hd : now.checkedAddSecs (max ttl 1).toNat = none) :
    (s.leaseGrant now ttl id).1 = .error .instantOverflow := by
  simp only [leaseGrant, hd]

/-- Granting a lease disturbs no live lease exactly when the grant panics or the
    id it uses, the requested one or the next of the counter, is not live (or is
    the requested id of a lease that the grant replaces by an equal one). -/
theorem grantUndisturbing_iff (s : Store) (now : Instant) (ttl id : ℤ) :
    s.GrantUndisturbing now ttl id ↔
      now.checkedAddSecs (max ttl 1).toNat = none ∨ s.grantFits now ttl id := by
  rcases leaseGrant_cases s now ttl id with ⟨hd, he⟩ | ⟨deadline, hd, he⟩
  · refine iff_of_true ⟨fun id' le hle => ?_, fun _ hdr id' ttl' hok => ?_⟩ (Or.inl hd)
    · exact ⟨le, by rw [he]; exact hle, rfl, rfl, rfl⟩
    · rw [leaseGrant_error id hd] at hok
      cases hok
  · obtain ⟨hdr, hok⟩ := leaseGrant_ok (s := s) id hd
    have hget : ∀ id', (s.leaseGrant now ttl id).2.leases.get? id' =
        if s.actualId id = id' then some ⟨s.actualId id, max ttl 1, deadline, []⟩
        else s.leases.get? id' := by
      intro id'
      rw [he]
      exact OrdMap.get?_insert ..
    simp only [hd, reduceCtorEq, false_or]
    constructor
    · intro h le hle
      obtain ⟨le', hle', hkeys, httl, hdl⟩ := h.frame _ le hle
      rw [hget, if_pos rfl, Option.some.injEq] at hle'
      subst hle'
      refine ⟨fun hid => ?_, hkeys.symm, httl.symm, hd.trans (congrArg some hdl)⟩
      have := h.fresh hid hdr _ _ hok
      rw [hle] at this
      cases this
    · intro h
      refine ⟨fun id' le hle => ?_, fun hid hdr' id' ttl' hok' => ?_⟩
      · rw [hget]
        by_cases hid' : s.actualId id = id'
        · subst hid'
          obtain ⟨-, hkeys, httl, hdl⟩ := h le hle
          rw [hd, Option.some.injEq] at hdl
          exact ⟨_, if_pos rfl, hkeys.symm, httl.symm, hdl⟩
        · exact ⟨le, by rw [if_neg hid', hle], rfl, rfl, rfl⟩
      · rw [hok] at hok'
        obtain rfl : s.actualId id = id' := by
          simp only [Except.ok.injEq, Prod.mk.injEq] at hok'
          exact hok'.2.1
        cases hle : s.leases.get? (s.actualId id) with
        | none => rfl
        | some le => exact absurd hid (h le hle).1

/-- Every grant of a run from a fresh store meets `P` in the state in which it is
    served. -/
def AtGrants (P : Store → Instant → ℤ → ℤ → Prop) (qs : List Request) : Prop :=
  ∀ ps now ttl id, ps ++ [.leaseGrant now ttl id] <+: qs → P (Store.new.run ps) now ttl id

/-- In a run with any mix of explicit and automatic grants, no grant disturbs a live
    lease exactly when each of them panics or uses an id that is not live in the state
    it is served in (or replaces a lease by an equal one). -/
theorem grants_undisturbing_run_iff (qs : List Request) :
    AtGrants GrantUndisturbing qs ↔
      AtGrants (fun s now ttl id =>
        now.checkedAddSecs (max ttl 1).toNat = none ∨ s.grantFits now ttl id) qs :=
  forall₄_congr fun ps now ttl id =>
    imp_congr_right fun _ => grantUndisturbing_iff (Store.new.run ps) now ttl id

/-- A client grants the lease 1 and attaches a key; the next automatic grant gets
    the id 1 as well, and takes the key list and the deadline of the first lease.
    Granting the same id twice does the same. -/
theorem automatic_grant_takes_live_id :
    let s := Store.new.run
      [.leaseGrant ⟨1, 0, by decide, by decide⟩ 10 1, .put { key := [97], lease := 1 }]
    let now : Instant := ⟨5, 0, by decide, by decide⟩
    (s.leases.get? 1).map LeaseEntry.keys = some [[97]] ∧
      (∃ hdr, (s.leaseGrant now 60 0).1 = .ok (hdr, 1, 60)) ∧
      ((s.leaseGrant now 60 0).2.leases.get? 1).map LeaseEntry.keys = some [] ∧
      ¬ s.GrantUndisturbing now 60 0 ∧ ¬ s.GrantUndisturbing now 60 1 := by
  refine ⟨by decide, ⟨_, rfl⟩, by decide, fun h => ?_, fun h => ?_⟩
  · obtain ⟨le', hle', hkeys, -⟩ := h.frame 1 _ rfl
    obtain rfl := Option.some.inj hle'
    exact absurd hkeys (by decide)
  · obtain ⟨le', hle', hkeys, -⟩ := h.frame 1 _ rfl
    obtain rfl := Option.some.inj hle'
    exact absurd hkeys (by decide)

end Store

end Kubenyx.EtcdMem
