import Kubenyx.EtcdMem.Store

/-!
# The request handlers and the runs of the store

Model of the unary handlers of `rust/etcd-mem/src/svc.rs` (`KvSvc`, `LeaseSvc`)
and of one message of the `LeaseKeepAlive` stream. Each handler takes the
store's lock once, so serving a request is one atomic step of the store, and
any number of concurrent clients produce a sequence of such steps
(`Store.run`). The lease-expiry task changes the store only through
`lease_revoke`, so its steps are `Request.leaseRevoke` steps of the same runs.

A run goes on after a panic: the handler's task dies, the lock is released and
the store keeps what the call had already changed.
-/

namespace Kubenyx.EtcdMem

open Kubenyx.Common

/-- A request served under the store's lock. Requests that read the clock carry
    the value of `Instant::now()`. -/
inductive Request where
  | range (r : RangeRequest)
  | put (r : PutRequest)
  | deleteRange (r : DeleteRangeRequest)
  | txn (r : TxnRequest)
  | compact (revision : ℤ)
  | leaseGrant (now : Instant) (ttl id : ℤ)
  | leaseRevoke (id : ℤ)
  | leaseKeepAlive (now : Instant) (id : ℤ)
  | leaseTimeToLive (now : Instant) (id : ℤ) (keys : Bool)
  | leaseLeases

/-- What a handler sends back. -/
inductive Response where
  | range (r : RangeResponse)
  | put (r : PutResponse)
  | deleteRange (r : DeleteRangeResponse)
  | txn (r : TxnResponse)
  | compact (header : ResponseHeader)
  | leaseGrant (r : LeaseGrantResponse)
  | leaseRevoke (header : ResponseHeader)
  | leaseKeepAlive (r : LeaseKeepAliveResponse)
  | leaseTimeToLive (r : LeaseTimeToLiveResponse)
  | leaseLeases (r : LeaseLeasesResponse)
  /-- `Err(Status::not_found(message))`. -/
  | notFound (message : String)

/-- `{:#x}` of an `i64`: two's complement, lower case. -/
def hexI64 (x : ℤ) : String := "0x" ++ String.ofList (Nat.toDigits 16 (x % 2 ^ 64).toNat)

/-! ## `KvSvc` -/

namespace KvSvc

/-- `KvSvc::range` (svc.rs:20-39). -/
def range (s : Store) (r : RangeRequest) : Outcome Response :=
  match s.rangeResponse r with
  | .error p => (.error p, s)
  | .ok resp => (.ok (.range resp), s)

/-- `KvSvc::put` (svc.rs:41-56). -/
def put (s : Store) (r : PutRequest) : Outcome Response :=
  let ((hdr, prev), s') := s.put r.key r.value r.lease r.prevKv r.ignoreValue r.ignoreLease
  (.ok (.put { header := hdr, prevKv := prev.map fun k => kvToProto k false }), s')

/-- `KvSvc::delete_range` (svc.rs:58-73). -/
def deleteRange (s : Store) (r : DeleteRangeRequest) : Outcome Response :=
  match s.deleteRange r.key r.rangeEnd r.prevKv with
  | (.error p, s') => (.error p, s')
  | (.ok (hdr, deleted, prevKvs), s') =>
    (.ok (.deleteRange
      { header := hdr, deleted := deleted, prevKvs := prevKvs.map fun k => kvToProto k false }), s')

/-- `KvSvc::txn` (svc.rs:75-84). -/
def txn (s : Store) (r : TxnRequest) : Outcome Response :=
  match s.txn r with
  | (.error p, s') => (.error p, s')
  | (.ok (hdr, ok, responses), s') => (.ok (.txn (.mk hdr ok responses)), s')

/-- `KvSvc::compact` (svc.rs:86-94). -/
def compact (s : Store) (revision : ℤ) : Outcome Response :=
  let (hdr, s') := s.compact revision
  (.ok (.compact hdr), s')

end KvSvc

/-! ## `LeaseSvc` -/

namespace LeaseSvc

/-- `LeaseSvc::lease_grant` (svc.rs:344-357). -/
def leaseGrant (s : Store) (now : Instant) (ttl id : ℤ) : Outcome Response :=
  match s.leaseGrant now ttl id with
  | (.error p, s') => (.error p, s')
  | (.ok (hdr, id, ttl), s') =>
    (.ok (.leaseGrant { header := hdr, id := id, ttl := ttl, error := "" }), s')

/-- `LeaseSvc::lease_revoke` (svc.rs:359-367). -/
def leaseRevoke (s : Store) (id : ℤ) : Outcome Response :=
  let (hdr, s') := s.leaseRevoke id
  (.ok (.leaseRevoke hdr), s')

/-- One message of `LeaseSvc::lease_keep_alive` (svc.rs:381-400); an unknown
    lease is answered with TTL 0. -/
def leaseKeepAlive (s : Store) (now : Instant) (id : ℤ) : Outcome Response :=
  match s.leaseKeepalive now id with
  | (.error p, s') => (.error p, s')
  | (.ok (some (hdr, id, ttl)), s') =>
    (.ok (.leaseKeepAlive { header := hdr, id := id, ttl := ttl }), s')
  | (.ok none, s') => (.ok (.leaseKeepAlive { header := s'.header, id := id, ttl := 0 }), s')

/-- `LeaseSvc::lease_time_to_live` (svc.rs:409-425). -/
def leaseTimeToLive (s : Store) (now : Instant) (id : ℤ) (keys : Bool) : Response :=
  match s.leaseTtl now id keys with
  | some (hdr, id, ttl, keys) =>
    .leaseTimeToLive
      { header := hdr
        id := id
        ttl := ttl
        grantedTtl := ((s.leases.get? id).map LeaseEntry.grantedTtl).getD ttl
        keys := keys }
  | none => .notFound ("lease " ++ hexI64 id ++ " not found")

/-- `LeaseSvc::lease_leases` (svc.rs:427-441). -/
def leaseLeases (s : Store) : Response :=
  .leaseLeases { header := s.header, leases := s.leaseList }

end LeaseSvc

/-! ## Runs -/

namespace Store

/-- Serve one request. -/
def serve (s : Store) : Request → Outcome Response
  | .range r => KvSvc.range s r
  | .put r => KvSvc.put s r
  | .deleteRange r => KvSvc.deleteRange s r
  | .txn r => KvSvc.txn s r
  | .compact revision => KvSvc.compact s revision
  | .leaseGrant now ttl id => LeaseSvc.leaseGrant s now ttl id
  | .leaseRevoke id => LeaseSvc.leaseRevoke s id
  | .leaseKeepAlive now id => LeaseSvc.leaseKeepAlive s now id
  | .leaseTimeToLive now id keys => (.ok (LeaseSvc.leaseTimeToLive s now id keys), s)
  | .leaseLeases => (.ok (LeaseSvc.leaseLeases s), s)

/-- The store after serving one request. -/
def after (s : Store) (q : Request) : Store := (s.serve q).2

/-- The store after serving a sequence of requests. -/
def run (s : Store) (qs : List Request) : Store := qs.foldl after s

/-- A store state that some run from `Store::new` reaches. -/
def Reachable (s : Store) : Prop := ∃ qs, Store.new.run qs = s

@[simp] theorem run_nil (s : Store) : s.run [] = s := rfl

@[simp] theorem run_cons (s : Store) (q : Request) (qs : List Request) :
    s.run (q :: qs) = (s.after q).run qs := rfl

theorem run_append (s : Store) (qs rs : List Request) : s.run (qs ++ rs) = (s.run qs).run rs :=
  List.foldl_append

theorem reachable_new : Reachable Store.new := ⟨[], rfl⟩

theorem Reachable.run {s : Store} (h : s.Reachable) (qs : List Request) : (s.run qs).Reachable := by
  obtain ⟨ps, rfl⟩ := h
  exact ⟨ps ++ qs, run_append _ _ _⟩

theorem Reachable.after {s : Store} (h : s.Reachable) (q : Request) : (s.after q).Reachable :=
  h.run [q]

/-- A property of the states that every request preserves holds along every
    run. -/
theorem run_invariant {P : Store → Prop} (hstep : ∀ s q, P s → P (s.after q)) {s : Store}
    (h : P s) (qs : List Request) : P (s.run qs) := by
  induction qs generalizing s with
  | nil => exact h
  | cons q qs ih => exact ih (hstep s q h)

theorem Reachable.invariant {P : Store → Prop} (h0 : P Store.new)
    (hstep : ∀ s q, P s → P (s.after q)) {s : Store} (h : s.Reachable) : P s := by
  obtain ⟨qs, rfl⟩ := h
  exact run_invariant hstep h0 qs

/-! ## What each request does to the store -/

@[simp] theorem after_range (s : Store) (r : RangeRequest) : s.after (.range r) = s := by
  simp only [after, serve, KvSvc.range]
  split <;> rfl

@[simp] theorem after_put (s : Store) (r : PutRequest) :
    s.after (.put r) = (s.put r.key r.value r.lease r.prevKv r.ignoreValue r.ignoreLease).2 := rfl

@[simp] theorem after_deleteRange (s : Store) (r : DeleteRangeRequest) :
    s.after (.deleteRange r) = (s.deleteRange r.key r.rangeEnd r.prevKv).2 := by
  simp only [after, serve, KvSvc.deleteRange]
  split <;> simp_all

@[simp] theorem after_txn (s : Store) (r : TxnRequest) : s.after (.txn r) = (s.txn r).2 := by
  simp only [after, serve, KvSvc.txn]
  split <;> simp_all

@[simp] theorem after_compact (s : Store) (revision : ℤ) :
    s.after (.compact revision) = (s.compact revision).2 := rfl

@[simp] theorem after_leaseGrant (s : Store) (now : Instant) (ttl id : ℤ) :
    s.after (.leaseGrant now ttl id) = (s.leaseGrant now ttl id).2 := by
  simp only [after, serve, LeaseSvc.leaseGrant]
  split <;> simp_all

@[simp] theorem after_leaseRevoke (s : Store) (id : ℤ) :
    s.after (.leaseRevoke id) = (s.leaseRevoke id).2 := rfl

@[simp] theorem after_leaseKeepAlive (s : Store) (now : Instant) (id : ℤ) :
    s.after (.leaseKeepAlive now id) = (s.leaseKeepalive now id).2 := by
  simp only [after, serve, LeaseSvc.leaseKeepAlive]
  split <;> simp_all

/-- `lease_grant` either panics with only the counter advanced, or installs a
    fresh entry. -/
theorem leaseGrant_cases (s : Store) (now : Instant) (ttl id : ℤ) :
    (now.checkedAddSecs (max ttl 1).toNat = none ∧
      (s.leaseGrant now ttl id).2 =
        { s with nextLeaseId := if id = 0 then s.nextLeaseId + 1 else s.nextLeaseId }) ∨
    ∃ deadline, now.checkedAddSecs (max ttl 1).toNat = some deadline ∧
      (s.leaseGrant now ttl id).2 =
        { s with nextLeaseId := if id = 0 then s.nextLeaseId + 1 else s.nextLeaseId
                 leases := s.leases.insert (s.actualId id)
                   ⟨s.actualId id, max ttl 1, deadline, []⟩ } := by
  unfold leaseGrant
  cases hd : now.checkedAddSecs (max ttl 1).toNat with
  | none =>
    refine Or.inl ⟨rfl, ?_⟩
    by_cases hid : id = 0 <;> simp [hd, hid]
  | some deadline =>
    refine Or.inr ⟨deadline, rfl, ?_⟩
    by_cases hid : id = 0 <;> simp [hd, hid]

/-- `lease_keepalive` either leaves the store alone or moves the deadline of a
    live lease. -/
theorem leaseKeepalive_cases (s : Store) (now : Instant) (id : ℤ) :
    (s.leaseKeepalive now id).2 = s ∨
    ∃ le deadline, s.leases.get? id = some le ∧
      now.checkedAddSecs le.grantedTtl.toNat = some deadline ∧
      (s.leaseKeepalive now id).2 =
        { s with leases := s.leases.modify id fun le => { le with deadline := deadline } } := by
  unfold leaseKeepalive
  cases s.leases.get? id with
  | none => exact Or.inl rfl
  | some le =>
    dsimp only
    cases hd : now.checkedAddSecs le.grantedTtl.toNat with
    | none => exact Or.inl rfl
    | some deadline => exact Or.inr ⟨le, deadline, rfl, hd, rfl⟩

@[simp] theorem after_leaseTimeToLive (s : Store) (now : Instant) (id : ℤ) (keys : Bool) :
    s.after (.leaseTimeToLive now id keys) = s := rfl

@[simp] theorem after_leaseLeases (s : Store) : s.after .leaseLeases = s := rfl

end Store

end Kubenyx.EtcdMem
