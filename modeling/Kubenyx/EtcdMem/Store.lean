import Kubenyx.EtcdMem.Proto

/-!
# The in-memory store

Model of `rust/etcd-mem/src/store.rs`. Every operation takes the store before
the call and returns the store after it; the callers hold the store's lock for
the whole call, so a call is one atomic step.

* `BTreeMap` is `OrdMap`, a `Vec` is a `List`. Whether a `BTreeMap` ever held a key shows
  in what `range` does with bounds in the wrong order; the store keeps this beside `kvs`.
* The broadcast sender `tx` is the list of all batches sent on the channel since
  the store was created, oldest first. Receivers are cursors into it
  (`Kubenyx.EtcdMem.Watch`).
* A call that may panic returns an `Outcome`: the panic or the result, and the
  store as the call leaves it. Tokio's mutex is not poisoned by a panic, so
  whatever the call had already changed stays.
* `Instant::now()` is an argument of the operations that read the clock.
-/

namespace Kubenyx.EtcdMem

open Kubenyx.Common

/-- `CLUSTER_ID` (store.rs:15). -/
def CLUSTER_ID : ℕ := 0xCAFEDEADBEEF0001

/-- `MEMBER_ID` (store.rs:16). -/
def MEMBER_ID : ℕ := 1

/-- The ways in which a store operation can panic. -/
inductive Panic where
  /-- `BTreeMap::range`: range start is greater than range end. -/
  | rangeStartAfterEnd
  /-- `Instant + Duration`: overflow when adding duration to instant. -/
  | instantOverflow
  deriving DecidableEq, Repr

/-! ## Time -/

/-- `std::time::Instant`: seconds (an `i64`) and nanoseconds. -/
structure Instant where
  tvSec : ℤ
  tvNsec : ℕ
  tvSec_mem : -2 ^ 63 ≤ tvSec ∧ tvSec < 2 ^ 63
  tvNsec_lt : tvNsec < 10 ^ 9
  deriving DecidableEq

namespace Instant

instance : LE Instant := ⟨fun a b => a.tvSec < b.tvSec ∨ a.tvSec = b.tvSec ∧ a.tvNsec ≤ b.tvNsec⟩

theorem le_def {a b : Instant} :
    a ≤ b ↔ a.tvSec < b.tvSec ∨ a.tvSec = b.tvSec ∧ a.tvNsec ≤ b.tvNsec := Iff.rfl

instance (a b : Instant) : Decidable (a ≤ b) := decidable_of_iff _ le_def.symm

theorem le_refl (a : Instant) : a ≤ a := Or.inr ⟨rfl, Nat.le_refl _⟩

theorem le_trans {a b c : Instant} (hab : a ≤ b) (hbc : b ≤ c) : a ≤ c := by
  rw [le_def] at *
  omega

/-- `Instant + Duration::from_secs(secs)`, `none` where the addition panics. -/
def checkedAddSecs (t : Instant) (secs : ℕ) : Option Instant :=
  if h : t.tvSec + secs < 2 ^ 63 then
    some ⟨t.tvSec + secs, t.tvNsec, ⟨by have := t.tvSec_mem; omega, h⟩, t.tvNsec_lt⟩
  else none

theorem checkedAddSecs_eq_none_iff {t : Instant} {secs : ℕ} :
    t.checkedAddSecs secs = none ↔ 2 ^ 63 ≤ t.tvSec + secs := by
  rw [checkedAddSecs, ← not_lt]
  split_ifs with h
  · exact iff_of_false (by simp) (not_not.mpr h)
  · exact iff_of_true rfl h

/-- `deadline.saturating_duration_since(now).as_secs()`. -/
def saturatingSecsSince (deadline now : Instant) : ℤ :=
  if now ≤ deadline then
    deadline.tvSec - now.tvSec - (if deadline.tvNsec < now.tvNsec then 1 else 0)
  else 0

end Instant

/-! ## Core types -/

/-- `Kv` (store.rs:21-28). -/
structure Kv where
  key : Bytes
  value : Bytes
  createRevision : ℤ
  modRevision : ℤ
  version : ℤ
  lease : ℤ
  deriving DecidableEq, Repr

/-- `StoredEvent` (store.rs:31-35). -/
structure StoredEvent where
  evType : EventType
  kv : Kv
  prevKv : Option Kv
  deriving DecidableEq, Repr

/-- `BroadcastBatch` (store.rs:38-41). -/
structure BroadcastBatch where
  revision : ℤ
  events : List StoredEvent
  deriving DecidableEq, Repr

/-- `LeaseEntry` (store.rs:44-49). -/
structure LeaseEntry where
  id : ℤ
  grantedTtl : ℤ
  deadline : Instant
  keys : List Bytes
  deriving DecidableEq

/-- `Store` (store.rs:53-62). -/
structure Store where
  kvs : OrdMap Bytes Kv
  /-- Whether the `BTreeMap` behind `kvs` has a root node. It gets one with its first key and
      keeps it when its last key goes. -/
  rooted : Bool
  revision : ℤ
  compactRevision : ℤ
  log : List (ℤ × List StoredEvent)
  leases : OrdMap ℤ LeaseEntry
  nextLeaseId : ℤ
  tx : List BroadcastBatch
  deriving DecidableEq

/-- A call that may panic: its panic or result, and the store it leaves. -/
abbrev Outcome (α : Type) := Except Panic α × Store

/-- `kv_to_proto` (store.rs:553-562). -/
def kvToProto (k : Kv) (keysOnly : Bool) : KeyValue where
  key := k.key
  value := if keysOnly then [] else k.value
  createRevision := k.createRevision
  modRevision := k.modRevision
  version := k.version
  lease := k.lease

/-- `kv_to_event` (store.rs:564-570). -/
def kvToEvent (ev : StoredEvent) : Event where
  type := ev.evType
  kv := some (kvToProto ev.kv false)
  prevKv := ev.prevKv.map fun k => kvToProto k false

/-- `le.keys.retain(|k| k != key)`. -/
def LeaseEntry.release (key : Bytes) (le : LeaseEntry) : LeaseEntry :=
  { le with keys := le.keys.filter fun k => k ≠ key }

/-- `if !le.keys.contains(key) { le.keys.push(key) }`. -/
def LeaseEntry.attach (key : Bytes) (le : LeaseEntry) : LeaseEntry :=
  if key ∈ le.keys then le else { le with keys := le.keys ++ [key] }

namespace Store

/-- The store that `Store::new` creates (store.rs:67-85). -/
def new : Store where
  kvs := OrdMap.empty
  rooted := false
  revision := 1
  compactRevision := 0
  log := []
  leases := OrdMap.empty
  nextLeaseId := 1
  tx := []

/-- `header_rev` (store.rs:91-98). -/
def headerRev (revision : ℤ) : ResponseHeader where
  clusterId := CLUSTER_ID
  memberId := MEMBER_ID
  revision := revision
  raftTerm := 1

/-- `header` (store.rs:99-101). -/
def header (s : Store) : ResponseHeader := headerRev s.revision

/-! ## Range -/

/-- `b"\x00"` as a `range_end`: all keys `≥ key`. -/
def openEnd : Bytes := [0]

/-- The entries a key and a `range_end` select, in ascending key order: the
    walks of `range_kvs` (store.rs:117-126) and of `delete_range`
    (store.rs:220-236). An empty `range_end` means exactly one key, the single
    byte 0 means all keys `≥ key`. `BTreeMap::range` compares its bounds only
    when there is a root to search from. -/
def interval (s : Store) (key rangeEnd : Bytes) : Except Panic (List (Bytes × Kv)) :=
  if rangeEnd = [] then .ok ((s.kvs.get? key).toList.map fun kv => (key, kv))
  else if rangeEnd = openEnd then .ok (s.kvs.rangeFrom key)
  else
    match s.kvs.range? key rangeEnd with
    | some es => .ok es
    | none => if s.rooted then .error .rangeStartAfterEnd else .ok []

/-- The filter of `range_kvs` (store.rs:132-138). -/
def rangeFilter (r : RangeRequest) (atRev : ℤ) (kv : Kv) : Bool :=
  kv.modRevision ≤ atRev
    && (r.minModRevision = 0 || kv.modRevision ≥ r.minModRevision)
    && (r.maxModRevision = 0 || kv.modRevision ≤ r.maxModRevision)
    && (r.minCreateRevision = 0 || kv.createRevision ≥ r.minCreateRevision)
    && (r.maxCreateRevision = 0 || kv.createRevision ≤ r.maxCreateRevision)

/-- `at_rev` (store.rs:109-113). -/
def atRev (s : Store) (r : RangeRequest) : ℤ :=
  if r.revision = 0 then s.revision else min r.revision s.revision

/-- The page cut from the filtered entries (store.rs:141-149): the entries
    returned, `more` and `count`. The limit `usize::MAX` of `limit ≤ 0` exceeds
    the length of every `Vec`, so nothing is cut. -/
def page (limit : ℤ) (filtered : List Kv) : List Kv × Bool × ℤ :=
  if limit ≤ 0 then (filtered, false, filtered.length)
  else (filtered.take limit.toNat, filtered.length > limit.toNat, filtered.length)

/-- `range_kvs` (store.rs:107-150). -/
def rangeKvs (s : Store) (r : RangeRequest) : Except Panic (List Kv × Bool × ℤ) :=
  match s.interval r.key r.rangeEnd with
  | .error p => .error p
  | .ok all => .ok (page r.limit ((all.map Prod.snd).filter (rangeFilter r (s.atRev r))))

/-- The `RangeResponse` that `KvSvc::range` (svc.rs:23-38) and the
    `RequestRange` arm of `exec_op` (store.rs:386-403) both build. -/
def rangeResponse (s : Store) (r : RangeRequest) : Except Panic RangeResponse :=
  match s.rangeKvs r with
  | .error p => .error p
  | .ok (kvs, more, count) =>
    .ok { header := s.header
          kvs := if r.countOnly then [] else kvs.map fun k => kvToProto k r.keysOnly
          more := more
          count := count }

/-! ## Mutations -/

/-- `emit` (store.rs:542-548). -/
def emit (s : Store) (rev : ℤ) (events : List StoredEvent) : Store :=
  { s with log := s.log ++ [(rev, events)], tx := s.tx ++ [⟨rev, events⟩] }

/-- Take `key` off the key list of `lease`, if that is a live lease and not 0
    (store.rs:180-184 in `put`, store.rs:250-254 in `delete_range`). -/
def deregister (leases : OrdMap ℤ LeaseEntry) (lease : ℤ) (key : Bytes) :
    OrdMap ℤ LeaseEntry :=
  if lease ≠ 0 then leases.modify lease (LeaseEntry.release key) else leases

/-- Put `key` on the key list of `lease`, if that is a live lease and not 0
    (store.rs:186-192). -/
def register (leases : OrdMap ℤ LeaseEntry) (lease : ℤ) (key : Bytes) : OrdMap ℤ LeaseEntry :=
  if lease ≠ 0 then leases.modify lease (LeaseEntry.attach key) else leases

/-- `put` (store.rs:154-212). -/
def put (s : Store) (key value : Bytes) (lease : ℤ) (wantPrevKv ignoreValue ignoreLease : Bool) :
    (ResponseHeader × Option Kv) × Store :=
  let rev := s.revision + 1
  let prev := s.kvs.get? key
  let useValue := if ignoreValue then (prev.map Kv.value).getD [] else value
  let useLease := if ignoreLease then (prev.map Kv.lease).getD 0 else lease
  let leases := deregister s.leases ((prev.map Kv.lease).getD 0) key
  let leases := register leases useLease key
  let entry : Kv :=
    { key := key
      value := useValue
      createRevision := (prev.map Kv.createRevision).getD rev
      modRevision := rev
      version := (prev.map fun k => k.version + 1).getD 1
      lease := useLease }
  let ev : StoredEvent := { evType := .put, kv := entry, prevKv := prev }
  let s' := emit
    { s with revision := rev, leases := leases, kvs := s.kvs.insert key entry, rooted := true }
    rev [ev]
  ((s'.header, if wantPrevKv then prev else none), s')

/-- The variables that the loop of `delete_range` changes (store.rs:244-272). -/
structure DeleteLoop where
  kvs : OrdMap Bytes Kv
  leases : OrdMap ℤ LeaseEntry
  prevKvs : List Kv
  events : List StoredEvent

/-- The body of `for k in &keys` in `delete_range` (store.rs:248-271). -/
def deleteBody (rev : ℤ) (wantPrevKv : Bool) (st : DeleteLoop) (k : Bytes) : DeleteLoop :=
  match st.kvs.get? k with
  | none => st
  | some old =>
    let delKv : Kv :=
      { key := k
        value := []
        createRevision := old.createRevision
        modRevision := rev
        version := 0
        lease := 0 }
    { kvs := st.kvs.remove k
      leases := deregister st.leases old.lease k
      prevKvs := if wantPrevKv then st.prevKvs ++ [old] else st.prevKvs
      events := st.events ++ [{ evType := .delete, kv := delKv, prevKv := some old }] }

/-- `delete_range` (store.rs:214-277). -/
def deleteRange (s : Store) (reqKey rangeEnd : Bytes) (wantPrevKv : Bool) :
    Outcome (ResponseHeader × ℤ × List Kv) :=
  match s.interval reqKey rangeEnd with
  | .error p => (.error p, s)
  | .ok es =>
    let keys := es.map Prod.fst
    if keys = [] then (.ok (s.header, 0, []), s)
    else
      let rev := s.revision + 1
      let st := keys.foldl (deleteBody rev wantPrevKv) ⟨s.kvs, s.leases, [], []⟩
      let s' := emit { s with revision := rev, kvs := st.kvs, leases := st.leases } rev st.events
      (.ok (s'.header, st.events.length, st.prevKvs), s')

/-! ## Transactions -/

/-- `eval_compare` (store.rs:296-378). -/
def evalCompare (s : Store) (c : Compare) : Bool :=
  let kv := s.kvs.get? c.key
  let result : Ordering :=
    if c.result = CompareResult.equal then .eq
    else if c.result = CompareResult.greater then .gt
    else if c.result = CompareResult.less then .lt
    else .eq -- NOT_EQUAL handled below
  let notEqual : Bool := c.result = CompareResult.notEqual
  let holds (ord : Ordering) : Bool := if notEqual then ord ≠ .eq else ord = result
  if c.target = CompareTarget.version then
    let target := match c.targetUnion with | some (.version x) => x | _ => 0
    holds (cmp ((kv.map Kv.version).getD 0) target)
  else if c.target = CompareTarget.create then
    let target := match c.targetUnion with | some (.createRevision x) => x | _ => 0
    holds (cmp ((kv.map Kv.createRevision).getD 0) target)
  else if c.target = CompareTarget.mod then
    let target := match c.targetUnion with | some (.modRevision x) => x | _ => 0
    holds (cmp ((kv.map Kv.modRevision).getD 0) target)
  else if c.target = CompareTarget.value then
    let target := match c.targetUnion with | some (.value x) => x | _ => []
    holds (cmp ((kv.map Kv.value).getD []) target)
  else if c.target = CompareTarget.lease then
    let target := match c.targetUnion with | some (.lease x) => x | _ => 0
    holds (cmp ((kv.map Kv.lease).getD 0) target)
  else true

mutual

/-- `txn` (store.rs:281-294). -/
def txn (s : Store) : TxnRequest → Outcome (ResponseHeader × Bool × List ResponseOp)
  | .mk compare success failure =>
    let ok := compare.all s.evalCompare
    match (if ok then execOps s success else execOps s failure) with
    | (.error p, s') => (.error p, s')
    | (.ok responses, s') => (.ok (s'.header, ok, responses), s')

/-- `exec_op` (store.rs:380-448). -/
def execOp (s : Store) : RequestOp → Outcome ResponseOp
  | .requestRange r =>
    match s.rangeResponse r with
    | .error p => (.error p, s)
    | .ok resp => (.ok (.responseRange resp), s)
  | .requestPut r =>
    let ((hdr, prev), s') := s.put r.key r.value r.lease r.prevKv r.ignoreValue r.ignoreLease
    (.ok (.responsePut { header := hdr, prevKv := prev.map fun k => kvToProto k false }), s')
  | .requestDeleteRange r =>
    match s.deleteRange r.key r.rangeEnd r.prevKv with
    | (.error p, s') => (.error p, s')
    | (.ok (hdr, deleted, prevKvs), s') =>
      (.ok (.responseDeleteRange
        { header := hdr, deleted := deleted, prevKvs := prevKvs.map fun k => kvToProto k false }),
        s')
  | .requestTxn r =>
    match txn s r with
    | (.error p, s') => (.error p, s')
    | (.ok (hdr, ok, resp), s') => (.ok (.responseTxn (.mk hdr ok resp)), s')
  | .unset => (.ok .unset, s)

/-- `ops.iter().map(|op| self.exec_op(op)).collect()` (store.rs:291): the
    operations run one by one on the live store, up to the first panic. -/
def execOps (s : Store) : List RequestOp → Outcome (List ResponseOp)
  | [] => (.ok [], s)
  | op :: ops =>
    match execOp s op with
    | (.error p, s') => (.error p, s')
    | (.ok resp, s') =>
      match execOps s' ops with
      | (.error p, s'') => (.error p, s'')
      | (.ok resps, s'') => (.ok (resp :: resps), s'')

end

/-! ## Compaction -/

/-- `compact` (store.rs:452-459). -/
def compact (s : Store) (compactRev : ℤ) : ResponseHeader × Store :=
  let s' :=
    if compactRev > s.compactRevision then
      { s with compactRevision := compactRev, log := s.log.filter fun e => e.1 > compactRev }
    else s
  (s'.header, s')

/-! ## Leases -/

/-- The id that `lease_grant` uses for a requested id (store.rs:464-470). -/
def actualId (s : Store) (id : ℤ) : ℤ := if id = 0 then s.nextLeaseId else id

/-- `lease_grant` (store.rs:463-482). The counter is advanced before the
    deadline is computed, so a panic in the addition leaves it advanced. -/
def leaseGrant (s : Store) (now : Instant) (ttl id : ℤ) : Outcome (ResponseHeader × ℤ × ℤ) :=
  let actualId := s.actualId id
  let s := if id = 0 then { s with nextLeaseId := s.nextLeaseId + 1 } else s
  let actualTtl := max ttl 1
  match now.checkedAddSecs actualTtl.toNat with
  | none => (.error .instantOverflow, s)
  | some deadline =>
    let entry : LeaseEntry :=
      { id := actualId, grantedTtl := actualTtl, deadline := deadline, keys := [] }
    let s' := { s with leases := s.leases.insert actualId entry }
    (.ok (s'.header, actualId, actualTtl), s')

/-- `lease_revoke` (store.rs:484-492). `delete_range` with an empty `range_end`
    cannot panic (`deleteRange_single_ok`), so the loop has no error path. -/
def leaseRevoke (s : Store) (id : ℤ) : ResponseHeader × Store :=
  let s' :=
    match s.leases.get? id with
    | none => s
    | some le =>
      le.keys.foldl (fun s k => (s.deleteRange k [] false).2)
        { s with leases := s.leases.remove id }
  (s'.header, s')

/-- `lease_keepalive` (store.rs:494-501). -/
def leaseKeepalive (s : Store) (now : Instant) (id : ℤ) :
    Outcome (Option (ResponseHeader × ℤ × ℤ)) :=
  match s.leases.get? id with
  | none => (.ok none, s)
  | some le =>
    match now.checkedAddSecs le.grantedTtl.toNat with
    | none => (.error .instantOverflow, s)
    | some deadline =>
      let s' := { s with leases := s.leases.modify id fun le => { le with deadline := deadline } }
      (.ok (some (s'.header, id, le.grantedTtl)), s')

/-- `lease_ttl` (store.rs:503-516). -/
def leaseTtl (s : Store) (now : Instant) (id : ℤ) (wantKeys : Bool) :
    Option (ResponseHeader × ℤ × ℤ × List Bytes) :=
  match s.leases.get? id with
  | none => none
  | some le =>
    some (s.header, id, le.deadline.saturatingSecsSince now, if wantKeys then le.keys else [])

/-- `lease_list` (store.rs:518-520). -/
def leaseList (s : Store) : List ℤ := s.leases.keys

/-- `expired_leases` (store.rs:523-530). -/
def expiredLeases (s : Store) (now : Instant) : List ℤ :=
  (s.leases.values.filter fun le => le.deadline ≤ now).map LeaseEntry.id

/-! ## Watch log -/

/-- `events_since` (store.rs:534-540). -/
def eventsSince (s : Store) (startRev : ℤ) : List (ℤ × List StoredEvent) :=
  s.log.filter fun e => e.1 > startRev

end Store

end Kubenyx.EtcdMem
