import Kubenyx.EtcdMem.Interval

/-!
# Transactions as sequences of leaf operations

A transaction is a tree: its branches hold ranges, puts, range deletions and
further transactions. Running it performs a sequence of leaf operations, the
branch of each nested transaction being chosen on the store that the leaves
before it leave. `txnLeaves` is that sequence; it is computed from the total
effect of each leaf and knows nothing of panics.

* `txn_performs`, `txn_effect`: `txn` performs the leaves of its plan in order up
  to the first one that panics on the store that it meets, and returns normally
  exactly when there is no such leaf. Every invariant of puts and deletions carries
  over to nested transactions through these.
* `completes_iff`: exactly when a request returns normally.
-/

namespace Kubenyx.EtcdMem

open Kubenyx.Common

/-- An operation of a transaction that is not itself a transaction. -/
inductive LeafOp where
  | range (r : RangeRequest)
  | put (r : PutRequest)
  | deleteRange (r : DeleteRangeRequest)

namespace LeafOp

/-- The leaf does not panic on `s`: a range and a range deletion have bounds that the store
    accepts. -/
def accepted (s : Store) : LeafOp → Bool
  | .range r => s.Accepts r.key r.rangeEnd
  | .put _ => true
  | .deleteRange r => s.Accepts r.key r.rangeEnd

/-- What the leaf does to the store. A `delete_range` that panics leaves the
    store as it was. -/
def apply (s : Store) : LeafOp → Store
  | .range _ => s
  | .put r => (s.put r.key r.value r.lease r.prevKv r.ignoreValue r.ignoreLease).2
  | .deleteRange r => (s.deleteRange r.key r.rangeEnd r.prevKv).2

end LeafOp

namespace Store

/-- The store after a sequence of leaf operations. -/
def effect (s : Store) (ls : List LeafOp) : Store := ls.foldl LeafOp.apply s

@[simp] theorem effect_nil (s : Store) : s.effect [] = s := rfl

@[simp] theorem effect_cons (s : Store) (l : LeafOp) (ls : List LeafOp) :
    s.effect (l :: ls) = (l.apply s).effect ls := rfl

theorem effect_append (s : Store) (ls ms : List LeafOp) :
    s.effect (ls ++ ms) = (s.effect ls).effect ms := List.foldl_append

/-- What puts and deletions preserve, a sequence of leaves preserves. -/
theorem effect_invariant {P : Store → Prop}
    (hput : ∀ s (r : PutRequest), P s →
      P (s.put r.key r.value r.lease r.prevKv r.ignoreValue r.ignoreLease).2)
    (hdelete : ∀ s (r : DeleteRangeRequest), P s → P (s.deleteRange r.key r.rangeEnd r.prevKv).2)
    {s : Store} (h : P s) (ls : List LeafOp) : P (s.effect ls) := by
  induction ls generalizing s with
  | nil => exact h
  | cons l ls ih =>
    refine ih ?_
    cases l with
    | range r => exact h
    | put r => exact hput s r h
    | deleteRange r => exact hdelete s r h

/-- The branch that `txn` chooses (store.rs:289-290). -/
def branch (s : Store) (r : TxnRequest) : List RequestOp :=
  if r.compare.all s.evalCompare then r.success else r.failure

mutual

/-- The leaves of a transaction on the store `s`. -/
def txnLeaves (s : Store) : TxnRequest → List LeafOp
  | .mk compare success failure =>
    if compare.all s.evalCompare then opsLeaves s success else opsLeaves s failure

/-- The leaves of one operation. -/
def opLeaves (s : Store) : RequestOp → List LeafOp
  | .requestRange r => [.range r]
  | .requestPut r => [.put r]
  | .requestDeleteRange r => [.deleteRange r]
  | .requestTxn r => txnLeaves s r
  | .unset => []

/-- The leaves of a list of operations, each planned on the store that the
    leaves before it leave. -/
def opsLeaves (s : Store) : List RequestOp → List LeafOp
  | [] => []
  | op :: ops => opLeaves s op ++ opsLeaves (s.effect (opLeaves s op)) ops

end

theorem txnLeaves_eq (s : Store) (r : TxnRequest) : txnLeaves s r = opsLeaves s (s.branch r) := by
  obtain ⟨compare, success, failure⟩ := r
  rw [txnLeaves, branch, TxnRequest.compare, TxnRequest.success, TxnRequest.failure,
    apply_ite (opsLeaves s)]

/-! ## The code performs the plan -/

/-- The leaves that are performed on `s`: those before the first one that panics. -/
def performed (s : Store) : List LeafOp → List LeafOp
  | [] => []
  | l :: ls => if l.accepted s then l :: performed (l.apply s) ls else []

/-- No leaf panics on the store that the leaves before it leave. -/
def acceptsAll (s : Store) : List LeafOp → Bool
  | [] => true
  | l :: ls => l.accepted s && acceptsAll (l.apply s) ls

section performed

variable {s : Store} {ls : List LeafOp}

theorem acceptsAll_append (s : Store) (ls ms : List LeafOp) :
    s.acceptsAll (ls ++ ms) = (s.acceptsAll ls && (s.effect ls).acceptsAll ms) := by
  induction ls generalizing s with
  | nil => rfl
  | cons l ls ih => rw [List.cons_append, acceptsAll, acceptsAll, ih, effect_cons, Bool.and_assoc]

theorem performed_append (h : s.acceptsAll ls = true) (ms : List LeafOp) :
    s.performed (ls ++ ms) = ls ++ (s.effect ls).performed ms := by
  induction ls generalizing s with
  | nil => rfl
  | cons l ls ih =>
    rw [acceptsAll, Bool.and_eq_true] at h
    rw [List.cons_append, performed, if_pos h.1, ih h.2, effect_cons, List.cons_append]

theorem performed_of_acceptsAll (h : s.acceptsAll ls = true) : s.performed ls = ls := by
  have happend := performed_append h []
  rwa [List.append_nil, performed, List.append_nil] at happend

/-- What comes after a leaf that panics is not performed. -/
theorem performed_append_of_not (h : s.acceptsAll ls = false) (ms : List LeafOp) :
    s.performed (ls ++ ms) = s.performed ls := by
  induction ls generalizing s with
  | nil => cases h
  | cons l ls ih =>
    rw [List.cons_append, performed, performed]
    split_ifs with hl
    · rw [acceptsAll, hl, Bool.true_and] at h
      rw [ih h]
    · rfl

end performed

/-- `o` is the outcome of performing `ls` on `s` up to the first leaf that panics. -/
def Performs {α : Type} (o : Outcome α) (s : Store) (ls : List LeafOp) : Prop :=
  o.1.isOk = s.acceptsAll ls ∧ o.2 = s.effect (s.performed ls)

theorem performs_leaf_ok {α : Type} {s : Store} {l : LeafOp} (h : l.accepted s = true) (resp : α) :
    Performs (.ok resp, l.apply s) s [l] := by
  simp [Performs, acceptsAll, performed, h, Except.isOk, Except.toBool]

theorem performs_leaf_error {α : Type} {s : Store} {l : LeafOp} (h : l.accepted s = false)
    (p : Panic) : Performs (α := α) (.error p, s) s [l] := by
  simp [Performs, acceptsAll, performed, h, Except.isOk, Except.toBool]

mutual

theorem txn_performs (s : Store) : ∀ r : TxnRequest, Performs (txn s r) s (txnLeaves s r)
  | .mk compare success failure => by
    have h : Performs (if compare.all s.evalCompare then execOps s success else execOps s failure) s
        (if compare.all s.evalCompare then opsLeaves s success else opsLeaves s failure) := by
      split_ifs
      · exact execOps_performs s success
      · exact execOps_performs s failure
    rw [txn, txnLeaves]
    obtain ⟨h1, h2⟩ := h
    split
    · rename_i p s' he
      rw [he] at h1 h2
      exact ⟨h1, h2⟩
    · rename_i responses s' he
      rw [he] at h1 h2
      exact ⟨h1, h2⟩

theorem execOp_performs (s : Store) : ∀ op : RequestOp, Performs (execOp s op) s (opLeaves s op)
  | .requestRange r => by
    rw [execOp, opLeaves]
    by_cases h : s.Accepts r.key r.rangeEnd
    · obtain ⟨resp, hr⟩ := (rangeResponse_isOk s r).mpr h
      rw [hr]
      exact performs_leaf_ok (l := .range r) (decide_eq_true h) _
    · rw [rangeResponse_of_not_accepts h]
      exact performs_leaf_error (l := .range r) (decide_eq_false h) _
  | .requestPut r => by
    rw [execOp, opLeaves]
    exact ⟨rfl, rfl⟩
  | .requestDeleteRange r => by
    rw [execOp, opLeaves]
    by_cases h : s.Accepts r.key r.rangeEnd
    · obtain ⟨resp, hr⟩ := (deleteRange_isOk s r.key r.rangeEnd r.prevKv).mpr h
      have he : s.deleteRange r.key r.rangeEnd r.prevKv =
          (.ok resp, (s.deleteRange r.key r.rangeEnd r.prevKv).2) := Prod.ext hr rfl
      rw [he]
      exact performs_leaf_ok (l := .deleteRange r) (decide_eq_true h) _
    · rw [deleteRange_of_not_accepts h]
      exact performs_leaf_error (l := .deleteRange r) (decide_eq_false h) _
  | .requestTxn r => by
    rw [execOp, opLeaves]
    obtain ⟨h1, h2⟩ := txn_performs s r
    split
    · rename_i p s' he
      rw [he] at h1 h2
      exact ⟨h1, h2⟩
    · rename_i hdr ok resp s' he
      rw [he] at h1 h2
      exact ⟨h1, h2⟩
  | .unset => by
    rw [execOp, opLeaves]
    exact ⟨rfl, rfl⟩

theorem execOps_performs (s : Store) :
    ∀ ops : List RequestOp, Performs (execOps s ops) s (opsLeaves s ops)
  | [] => ⟨rfl, rfl⟩
  | op :: ops => by
    obtain ⟨h1, h2⟩ := execOp_performs s op
    rw [execOps, opsLeaves]
    split
    · -- the operation panics in one of its leaves, the rest is not run
      rename_i p s' he
      rw [he] at h1 h2
      have hall : s.acceptsAll (opLeaves s op) = false := h1.symm
      refine ⟨?_, ?_⟩
      · rw [acceptsAll_append, hall]
        rfl
      · rw [performed_append_of_not hall]
        exact h2
    · rename_i resp s' he
      rw [he] at h1 h2
      have hall : s.acceptsAll (opLeaves s op) = true := h1.symm
      have hs' : s' = s.effect (opLeaves s op) := by
        rw [performed_of_acceptsAll hall] at h2
        exact h2
      obtain ⟨h3, h4⟩ := execOps_performs (s.effect (opLeaves s op)) ops
      rw [hs']
      split
      · rename_i p s'' he'
        rw [he'] at h3 h4
        refine ⟨?_, ?_⟩
        · rw [acceptsAll_append, hall, ← h3]
          rfl
        · rw [performed_append hall, effect_append]
          exact h4
      · rename_i resps s'' he'
        rw [he'] at h3 h4
        refine ⟨?_, ?_⟩
        · rw [acceptsAll_append, hall, ← h3]
          rfl
        · rw [performed_append hall, effect_append]
          exact h4

end

/-- What a transaction does to the store: the effect of its plan up to the first
    leaf that panics. -/
theorem txn_effect (s : Store) (r : TxnRequest) :
    (s.txn r).2 = s.effect (s.performed (s.txnLeaves r)) :=
  (txn_performs s r).2

/-! ## Returning normally -/

theorem execOps_length {s s' : Store} {ops : List RequestOp} {resps : List ResponseOp}
    (h : execOps s ops = (.ok resps, s')) : resps.length = ops.length := by
  induction ops generalizing s s' resps with
  | nil =>
    rw [execOps] at h
    cases h
    rfl
  | cons op ops ih =>
    rw [execOps] at h
    split at h
    · cases h
    · split at h
      · cases h
      · rename_i he
        cases h
        rw [List.length_cons, List.length_cons, ih he]

/-- The request returns normally. A transaction then reports the branch that its
    compares choose and has an answer for every operation of that branch. -/
def Completes (s : Store) : Request → Prop
  | .txn r => ∃ hdr resps,
      (s.serve (.txn r)).1 = .ok (.txn (.mk hdr (r.compare.all s.evalCompare) resps)) ∧
        resps.length = (s.branch r).length
  | q => ∃ resp, (s.serve q).1 = .ok resp

theorem completes_range_iff (s : Store) (r : RangeRequest) :
    s.Completes (.range r) ↔ s.Accepts r.key r.rangeEnd := by
  rw [← rangeResponse_isOk s r]
  simp only [Completes, serve, KvSvc.range]
  cases s.rangeResponse r <;> simp

theorem completes_deleteRange_iff (s : Store) (r : DeleteRangeRequest) :
    s.Completes (.deleteRange r) ↔ s.Accepts r.key r.rangeEnd := by
  rw [← deleteRange_isOk s r.key r.rangeEnd r.prevKv]
  simp only [Completes, serve, KvSvc.deleteRange]
  split
  · rename_i h
    simp [h]
  · rename_i h
    simp [h]

theorem completes_txn_iff (s : Store) (r : TxnRequest) :
    s.Completes (.txn r) ↔ s.acceptsAll (s.txnLeaves r) = true := by
  rw [← (txn_performs s r).1]
  obtain ⟨compare, success, failure⟩ := r
  simp only [Completes, serve, KvSvc.txn, txn]
  rcases hb : (if compare.all s.evalCompare then execOps s success else execOps s failure)
    with ⟨o, s'⟩
  cases o with
  | error p => simp [Except.isOk, Except.toBool]
  | ok resps =>
    have hlen : resps.length = (s.branch (.mk compare success failure)).length := by
      rw [branch, TxnRequest.compare, TxnRequest.success, TxnRequest.failure]
      split_ifs at hb ⊢ <;> exact execOps_length hb
    simp only [Except.isOk, Except.toBool, iff_true]
    exact ⟨_, _, rfl, hlen⟩

theorem completes_leaseGrant_iff (s : Store) (now : Instant) (ttl id : ℤ) :
    s.Completes (.leaseGrant now ttl id) ↔ now.tvSec + max ttl 1 < 2 ^ 63 := by
  have hcast : ((max ttl 1).toNat : ℤ) = max ttl 1 := Int.toNat_of_nonneg (by omega)
  rw [← hcast, ← not_le, ← Instant.checkedAddSecs_eq_none_iff]
  simp only [Completes, serve, LeaseSvc.leaseGrant, leaseGrant]
  cases now.checkedAddSecs (max ttl 1).toNat <;> simp

/-- Exactly when a request returns normally: a range or a range deletion when its
    bounds are ordered or no key has ever been in the map, a transaction when the same
    holds of every leaf of its plan on the store that the leaves before it leave, a
    grant when the deadline is representable. -/
theorem completes_iff (s : Store) :
    (∀ r, s.Completes (.range r) ↔ Ordered r.key r.rangeEnd ∨ s.rooted = false) ∧
    (∀ r, s.Completes (.deleteRange r) ↔ Ordered r.key r.rangeEnd ∨ s.rooted = false) ∧
    (∀ r, s.Completes (.txn r) ↔ s.acceptsAll (s.txnLeaves r) = true) ∧
    (∀ now ttl id, s.Completes (.leaseGrant now ttl id) ↔ now.tvSec + max ttl 1 < 2 ^ 63) :=
  ⟨completes_range_iff s, completes_deleteRange_iff s, completes_txn_iff s,
    completes_leaseGrant_iff s⟩

/-- With one key in the store, or one that was there and is deleted again: a range and a
    deletion from `b` to `a` panic. On the fresh store, one second after the epoch of the
    clock: a grant of `i64::MAX` seconds panics, and a transaction that puts `k` and then
    ranges from `b` to `a` panics with the put already committed. -/
theorem requests_panic :
    let s := Store.new.run [.put { key := [107] }]
    let s' := s.run [.deleteRange { key := [107], rangeEnd := [] }]
    let q : TxnRequest := .mk [] [.requestPut { key := [107] },
      .requestRange { key := [98], rangeEnd := [97] }] []
    s.Reachable ∧ s'.Reachable ∧ s'.kvs.entries = [] ∧
    ¬ s.Completes (.range { key := [98], rangeEnd := [97] }) ∧
    ¬ s'.Completes (.deleteRange { key := [98], rangeEnd := [97] }) ∧
    ¬ Store.new.Completes (.leaseGrant ⟨1, 0, by decide, by decide⟩ (2 ^ 63 - 1) 0) ∧
    ¬ Store.new.Completes (.txn q) ∧ ((Store.new.after (.txn q)).kvs.get? [107]).isSome := by
  intro s s' q
  have hs' : Store.new.run [.put { key := [107] }, .deleteRange { key := [107], rangeEnd := [] }] =
      s' := rfl
  refine ⟨⟨_, rfl⟩, ⟨_, hs'⟩, by decide, ?_, ?_, ?_, ?_, by decide⟩
  · rw [completes_range_iff]
    decide
  · rw [completes_deleteRange_iff]
    decide
  · rw [completes_leaseGrant_iff]
    decide
  · rw [completes_txn_iff]
    decide

end Store

end Kubenyx.EtcdMem
