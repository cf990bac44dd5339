import Kubenyx.Common.Machine
import Kubenyx.EtcdMem.History

/-!
# The watch stream

Model of `WatchSvc::watch` (svc.rs:102-333): the task that serves one watch stream.
The task owns its handles, its broadcast receiver and the channel to its client;
it shares the store with everybody else. The machine `step` interleaves the task
with the requests of all clients:

* The broadcast receiver is a cursor into `Store.tx`, the list of everything ever
  sent. It yields the batches in the order they were sent, or reports that it
  lags and skips some.
* An iteration of the `select!` loop that takes the store's lock is two steps,
  up to the release of the lock and from there to its end, so that other
  requests can be served in between. Everything else an iteration does is local
  to the task.
* Each response on the channel to the client is recorded with the watch it is
  for. Watches are counted from 0 in the order of their creation: clients may
  choose watch ids, and nothing stops two watches from having the same one.
-/

namespace Kubenyx.EtcdMem

open Kubenyx.Common

/-! ## Handles -/

/-- `WatchHandle` (svc.rs:102-112). -/
structure WatchHandle where
  id : ℤ
  key : Bytes
  rangeEnd : Bytes
  prevKv : Bool
  filter : BitVec 32
  deliveredThrough : ℤ
  deriving DecidableEq

/-- The filter bit mask (svc.rs:197-199). The cast `f as u32` wraps, and the shift
    takes its amount modulo 32. -/
def filterMask (filters : List ℤ) : BitVec 32 :=
  filters.foldl (fun acc f => acc ||| (1#32 <<< ((f % 2 ^ 32).toNat % 32))) 0

namespace WatchHandle

/-- `WatchHandle::matches` (svc.rs:115-131). -/
def «matches» (h : WatchHandle) (evType : EventType) (kv : Kv) : Bool :=
  if h.filter &&& 1#32 ≠ 0 ∧ evType = .put then false
  else if h.filter &&& 2#32 ≠ 0 ∧ evType = .delete then false
  else inInterval h.key h.rangeEnd kv.key

/-- The closure that builds the event to send (svc.rs:229-233, svc.rs:290-294). -/
def event (h : WatchHandle) (e : StoredEvent) : Event :=
  if h.prevKv then kvToEvent e else { kvToEvent e with prevKv := none }

/-- The events of a batch that the handle lets through. -/
def matched (h : WatchHandle) (events : List StoredEvent) : List Event :=
  (events.filter fun e => h.matches e.evType e.kv).map h.event

/-- The response for a batch, none if nothing matches (svc.rs:227-247,
    svc.rs:288-309). -/
def response (h : WatchHandle) (revision : ℤ) (events : List StoredEvent) : Option WatchResponse :=
  if h.matched events = [] then none
  else some
    { header := some (Store.headerRev revision), watchId := h.id, events := h.matched events }

/-- The body of the loop over the handles for a batch `b` (svc.rs:287-309): the
    handle afterwards and the response sent. -/
def offer (h : WatchHandle) (b : BroadcastBatch) : WatchHandle × Option WatchResponse :=
  if b.revision ≤ h.deliveredThrough then (h, none)
  else ({ h with deliveredThrough := b.revision }, h.response b.revision b.events)

end WatchHandle

namespace WatchSvc

/-! ## The state of a stream -/

/-- A handle of the stream, with what is known of its creation. -/
structure Watch where
  handle : WatchHandle
  /-- The number of the watch on this stream. -/
  serial : ℕ
  startRevision : ℤ
  /-- The revisions read under the lock when the watch was created. -/
  curRev : ℤ
  compactRev : ℤ
  deriving DecidableEq

/-- The first revision the watch asks for: `start_revision`, or from now on. -/
def Watch.firstRevision (w : Watch) : ℤ := if 0 < w.startRevision then w.startRevision else w.curRev + 1

/-- A response on the channel to the client, and the watch it is for. -/
structure Sent where
  watch : Option ℕ
  response : WatchResponse
  deriving DecidableEq

/-- Where the task stands. -/
inductive Phase where
  /-- At the `select!`. -/
  | idle
  /-- Creating a watch: the snapshot taken under the lock is `history`, `curRev`
      and `compactRev` (svc.rs:171-183). -/
  | creating (cr : WatchCreateRequest) (wid : ℤ) (history : List (ℤ × List StoredEvent))
      (curRev compactRev : ℤ)
  /-- Answering a progress request, having read `rev` (svc.rs:261). -/
  | progress (rev : ℤ)
  /-- Out of the loop. -/
  | closed
  deriving DecidableEq

/-- The store and the state of one stream. -/
structure State where
  store : Store
  watches : List Watch
  nextWatchId : ℤ
  /-- How many of the batches in `store.tx` the receiver is past. -/
  bcast : ℕ
  phase : Phase
  /-- How many watches the stream has created. -/
  created : ℕ
  out : List Sent
  deriving DecidableEq

inductive Act where
  /-- A request of any client is served, or the expiry task revokes a lease. -/
  | serve (q : Request)
  /-- A client message arrives. -/
  | message (m : WatchRequest)
  /-- The rest of an iteration after the store's lock is released. -/
  | finish
  /-- `bcast.recv()` returns `Ok`. -/
  | recv
  /-- `bcast.recv()` returns `Lagged(n)`. -/
  | lagged (n : ℕ)
  /-- The client disconnects. -/
  | disconnect

/-! ## The iterations -/

/-- The stream just after it subscribed (svc.rs:150-155). -/
def subscribe (s : Store) : State where
  store := s
  watches := []
  nextWatchId := 1
  bcast := s.tx.length
  phase := .idle
  created := 0
  out := []

/-- A create message up to the release of the lock (svc.rs:165-183). -/
def beginCreate (σ : State) (cr : WatchCreateRequest) : State :=
  let history := if cr.startRevision > 0 then σ.store.eventsSince (cr.startRevision - 1) else []
  { σ with
    nextWatchId := if cr.watchId ≠ 0 then σ.nextWatchId else σ.nextWatchId + 1
    phase := .creating cr (if cr.watchId ≠ 0 then cr.watchId else σ.nextWatchId) history
      σ.store.revision σ.store.compactRevision }

/-- The handle that a create message makes (svc.rs:215-224). -/
def newHandle (cr : WatchCreateRequest) (wid curRev : ℤ) : WatchHandle where
  id := wid
  key := cr.key
  rangeEnd := cr.rangeEnd
  prevKv := cr.prevKv
  filter := filterMask cr.filters
  deliveredThrough := curRev

/-- The replay of the history (svc.rs:226-248). -/
def replay (h : WatchHandle) (serial : ℕ) (history : List (ℤ × List StoredEvent)) : List Sent :=
  history.filterMap fun e => (h.response e.1 e.2).map fun r => ⟨some serial, r⟩

/-- The rest of a create message (svc.rs:185-250): a refusal if the start
    revision has been compacted, else the acknowledgement, the history and the new
    handle. -/
def endCreate (σ : State) (cr : WatchCreateRequest) (wid : ℤ)
    (history : List (ℤ × List StoredEvent)) (curRev compactRev : ℤ) : State :=
  if cr.startRevision > 0 ∧ cr.startRevision ≤ compactRev then
    { σ with
      phase := .idle
      out := σ.out ++ [⟨none,
        { watchId := wid
          canceled := true
          compactRevision := compactRev
          cancelReason := "etcdserver: mvcc: required revision has been compacted" }⟩] }
  else
    let handle := newHandle cr wid curRev
    { σ with
      phase := .idle
      watches := σ.watches ++ [⟨handle, σ.created, cr.startRevision, curRev, compactRev⟩]
      created := σ.created + 1
      out := σ.out ++ ⟨some σ.created,
          { header := some (Store.headerRev curRev), watchId := wid, created := true }⟩ ::
        replay handle σ.created history }

/-- A cancel message (svc.rs:252-259). -/
def cancel (σ : State) (watchId : ℤ) : State :=
  { σ with
    watches := σ.watches.filter fun w => w.handle.id ≠ watchId
    out := σ.out ++ [⟨none, { watchId := watchId, canceled := true }⟩] }

/-- The answer to a progress request (svc.rs:262-270). -/
def progressResponse (rev : ℤ) : WatchResponse := { header := some (Store.headerRev rev) }

/-- A batch arrives (svc.rs:282-311). -/
def fanOut (σ : State) (b : BroadcastBatch) : State :=
  { σ with
    watches := σ.watches.map fun w => { w with handle := (w.handle.offer b).1 }
    bcast := σ.bcast + 1
    out := σ.out ++ σ.watches.filterMap fun w =>
      (w.handle.offer b).2.map fun r => ⟨some w.serial, r⟩ }

/-- The receiver lags and skips `n` batches (svc.rs:312-323). -/
def lag (σ : State) (n : ℕ) : State :=
  { σ with
    watches := []
    bcast := σ.bcast + n
    out := σ.out ++ σ.watches.map fun w => ⟨some w.serial,
      { watchId := w.handle.id
        canceled := true
        cancelReason := "broadcast lag — reconnect" }⟩ }

/-- One step of the system. -/
def step (σ : State) : Act → Option State
  | .serve q => some { σ with store := σ.store.after q }
  | .message m =>
    if σ.phase = .idle then
      match m with
      | .createRequest cr => some (beginCreate σ cr)
      | .cancelRequest watchId => some (cancel σ watchId)
      | .progressRequest => some { σ with phase := .progress σ.store.revision }
      | .unset => some σ
    else none
  | .finish =>
    match σ.phase with
    | .creating cr wid history curRev compactRev =>
      some (endCreate σ cr wid history curRev compactRev)
    | .progress rev =>
      some { σ with phase := .idle, out := σ.out ++ [⟨none, progressResponse rev⟩] }
    | _ => none
  | .recv => if σ.phase = .idle then (σ.store.tx[σ.bcast]?).map (fanOut σ) else none
  | .lagged n =>
    if σ.phase = .idle ∧ 0 < n ∧ σ.bcast + n ≤ σ.store.tx.length then some (lag σ n) else none
  | .disconnect => if σ.phase = .idle then some { σ with phase := .closed } else none

/-- The event batches sent for a watch. -/
def batchesFor (serial : ℕ) (out : List Sent) : List WatchResponse :=
  (out.filter fun m => m.watch = some serial ∧ m.response.events ≠ []).map Sent.response

end WatchSvc

end Kubenyx.EtcdMem
