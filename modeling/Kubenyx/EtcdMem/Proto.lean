import Kubenyx.Common.OrdMap

/-!
# The etcd v3 messages

The protobuf messages of `rust/etcd-mem/proto/rpc.proto` as the store and the
services read and build them. Fields that no modelled function reads or sets
are left out (`sort_order`, `sort_target`, `serializable` of `RangeRequest`,
`range_end` of `Compare`, `progress_notify` and `fragment` of the watch
messages, `physical` of `CompactionRequest`).

* A `bytes` field is `Bytes := List Byte`, `Byte := Fin 256`, with the
  lexicographic order of `Vec<u8>`.
* An `int64` field is an unbounded `ℤ`. The store only increments its counters
  by one, so none of them leaves the `i64` range before `2^63` operations; the
  one sum that can overflow, `Instant + Duration`, is modelled as such
  (`Instant.checkedAddSecs`).
* A `oneof` is an inductive type; an enumeration field that prost keeps as a
  bare `i32` (`Compare.result`, `Compare.target`) is a `ℤ`, since the code has a
  branch for values outside the enumeration.
-/

namespace Kubenyx.EtcdMem

open Kubenyx.Common

abbrev Byte := Fin 256
abbrev Bytes := List Byte

/-! ## Shared types -/

/-- `ResponseHeader`. -/
structure ResponseHeader where
  clusterId : ℕ
  memberId : ℕ
  revision : ℤ
  raftTerm : ℕ
  deriving DecidableEq, Repr

/-- `KeyValue`. -/
structure KeyValue where
  key : Bytes
  createRevision : ℤ
  modRevision : ℤ
  version : ℤ
  value : Bytes
  lease : ℤ
  deriving DecidableEq, Repr

/-- `Event.EventType`. -/
inductive EventType where
  | put
  | delete
  deriving DecidableEq, Repr

/-- `Event`. -/
structure Event where
  type : EventType
  kv : Option KeyValue
  prevKv : Option KeyValue
  deriving DecidableEq, Repr

/-! ## KV -/

/-- `RangeRequest`. -/
structure RangeRequest where
  key : Bytes
  rangeEnd : Bytes := []
  limit : ℤ := 0
  revision : ℤ := 0
  keysOnly : Bool := false
  countOnly : Bool := false
  minModRevision : ℤ := 0
  maxModRevision : ℤ := 0
  minCreateRevision : ℤ := 0
  maxCreateRevision : ℤ := 0
  deriving DecidableEq, Repr

/-- `RangeResponse`. -/
structure RangeResponse where
  header : ResponseHeader
  kvs : List KeyValue
  more : Bool
  count : ℤ
  deriving DecidableEq, Repr

/-- `PutRequest`. -/
structure PutRequest where
  key : Bytes
  value : Bytes := []
  lease : ℤ := 0
  prevKv : Bool := false
  ignoreValue : Bool := false
  ignoreLease : Bool := false
  deriving DecidableEq, Repr

/-- `PutResponse`. -/
structure PutResponse where
  header : ResponseHeader
  prevKv : Option KeyValue
  deriving DecidableEq, Repr

/-- `DeleteRangeRequest`. -/
structure DeleteRangeRequest where
  key : Bytes
  rangeEnd : Bytes := []
  prevKv : Bool := false
  deriving DecidableEq, Repr

/-- `DeleteRangeResponse`. -/
structure DeleteRangeResponse where
  header : ResponseHeader
  deleted : ℤ
  prevKvs : List KeyValue
  deriving DecidableEq, Repr

/-- `Compare.target_union`. -/
inductive TargetUnion where
  | version (x : ℤ)
  | createRevision (x : ℤ)
  | modRevision (x : ℤ)
  | lease (x : ℤ)
  | value (x : Bytes)
  deriving DecidableEq, Repr

/-- `Compare`; `result` and `target` are the raw enumeration numbers. -/
structure Compare where
  result : ℤ
  target : ℤ
  key : Bytes
  targetUnion : Option TargetUnion
  deriving DecidableEq, Repr

/-- The numbers of `Compare.CompareResult`. -/
def CompareResult.equal : ℤ := 0
def CompareResult.greater : ℤ := 1
def CompareResult.less : ℤ := 2
def CompareResult.notEqual : ℤ := 3

/-- The numbers of `Compare.CompareTarget`. -/
def CompareTarget.version : ℤ := 0
def CompareTarget.create : ℤ := 1
def CompareTarget.mod : ℤ := 2
def CompareTarget.value : ℤ := 3
def CompareTarget.lease : ℤ := 4

mutual

/-- `TxnRequest`. -/
inductive TxnRequest where
  | mk (compare : List Compare) (success failure : List RequestOp)

/-- `RequestOp`: the `oneof request`, `unset` when no member is present. -/
inductive RequestOp where
  | requestRange (r : RangeRequest)
  | requestPut (r : PutRequest)
  | requestDeleteRange (r : DeleteRangeRequest)
  | requestTxn (r : TxnRequest)
  | unset

end

/-- `TxnRequest.compare`. -/
def TxnRequest.compare : TxnRequest → List Compare
  | .mk c _ _ => c

/-- `TxnRequest.success`. -/
def TxnRequest.success : TxnRequest → List RequestOp
  | .mk _ s _ => s

/-- `TxnRequest.failure`. -/
def TxnRequest.failure : TxnRequest → List RequestOp
  | .mk _ _ f => f

mutual

/-- `TxnResponse`. -/
inductive TxnResponse where
  | mk (header : ResponseHeader) (succeeded : Bool) (responses : List ResponseOp)

/-- `ResponseOp`: the `oneof response`, `unset` when no member is present. -/
inductive ResponseOp where
  | responseRange (r : RangeResponse)
  | responsePut (r : PutResponse)
  | responseDeleteRange (r : DeleteRangeResponse)
  | responseTxn (r : TxnResponse)
  | unset

end

/-! ## Watch -/

/-- `WatchCreateRequest`. -/
structure WatchCreateRequest where
  key : Bytes
  rangeEnd : Bytes := []
  startRevision : ℤ := 0
  filters : List ℤ := []
  prevKv : Bool := false
  watchId : ℤ := 0
  deriving DecidableEq, Repr

/-- `WatchRequest`: the `oneof request_union`, `unset` when no member is
    present. -/
inductive WatchRequest where
  | createRequest (r : WatchCreateRequest)
  | cancelRequest (watchId : ℤ)
  | progressRequest
  | unset
  deriving DecidableEq, Repr

/-- `WatchResponse`. -/
structure WatchResponse where
  header : Option ResponseHeader := none
  watchId : ℤ := 0
  created : Bool := false
  canceled : Bool := false
  compactRevision : ℤ := 0
  cancelReason : String := ""
  events : List Event := []
  deriving DecidableEq, Repr

/-! ## Lease -/

/-- `LeaseGrantResponse`. -/
structure LeaseGrantResponse where
  header : ResponseHeader
  id : ℤ
  ttl : ℤ
  error : String
  deriving DecidableEq, Repr

/-- `LeaseKeepAliveResponse`. -/
structure LeaseKeepAliveResponse where
  header : ResponseHeader
  id : ℤ
  ttl : ℤ
  deriving DecidableEq, Repr

/-- `LeaseTimeToLiveResponse`. -/
structure LeaseTimeToLiveResponse where
  header : ResponseHeader
  id : ℤ
  ttl : ℤ
  grantedTtl : ℤ
  keys : List Bytes
  deriving DecidableEq, Repr

/-- `LeaseLeasesResponse`; a `LeaseStatus` holds only the id. -/
structure LeaseLeasesResponse where
  header : ResponseHeader
  leases : List ℤ
  deriving DecidableEq, Repr

end Kubenyx.EtcdMem
