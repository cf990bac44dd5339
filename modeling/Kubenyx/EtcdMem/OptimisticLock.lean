import Kubenyx.EtcdMem.Revision

/-!
# Optimistic locking

A client updates a key with a transaction that compares the key's
`mod_revision` with the revision it has read and writes the key if they are
equal. No revision is ever given to two versions of a key, also across deletion
and re-creation, so only one such update of each version can go through.

Executions of transactions are recorded with their position: the index of the
client request in the run, and the path of the transaction inside the request
(`[]` for the request itself, `path ++ [i]` for a transaction that is the `i`-th
operation of the branch taken at `path`).

* `locks_nested`: of the transactions that compare the `mod_revision` of `k` with
  `r ≥ 1`, take their success branch and write `k` there, any two lie in the same
  client request, one nested inside the other; and each of them replaces the
  version of `k` with `mod_revision` `r`.
-/

namespace Kubenyx.EtcdMem

open Kubenyx.Common

/-! ## Executions -/

/-- One execution of a transaction. -/
structure TxnExec where
  /-- Where the transaction stands in the client request. -/
  path : List ℕ
  req : TxnRequest
  /-- The store on which its compares are evaluated. -/
  before : Store

namespace Store

/-- The operations that run to completion. -/
def ranOps (s : Store) : List RequestOp → List RequestOp
  | [] => []
  | op :: ops =>
    match execOp s op with
    | (.error _, _) => []
    | (.ok _, s') => op :: ranOps s' ops

mutual

/-- The executions of a transaction and of those nested in it. -/
def txnExecs (s : Store) (path : List ℕ) : TxnRequest → List TxnExec
  | .mk compare success failure =>
    ⟨path, .mk compare success failure, s⟩ ::
      (if compare.all s.evalCompare then opsExecs s path 0 success
       else opsExecs s path 0 failure)

/-- The executions inside one operation. -/
def opExecs (s : Store) (path : List ℕ) : RequestOp → List TxnExec
  | .requestTxn r => txnExecs s path r
  | .requestRange _ => []
  | .requestPut _ => []
  | .requestDeleteRange _ => []
  | .unset => []

/-- The executions inside the operations of a branch, numbered from `i`. -/
def opsExecs (s : Store) (path : List ℕ) (i : ℕ) : List RequestOp → List TxnExec
  | [] => []
  | op :: ops =>
    opExecs s (path ++ [i]) op ++
      match execOp s op with
      | (.error _, _) => []
      | (.ok _, s') => opsExecs s' path (i + 1) ops

end

/-- The executions inside one client request. -/
def requestExecs (s : Store) : Request → List TxnExec
  | .txn r => txnExecs s [] r
  | _ => []

/-- The executions of a run, each with the index of its client request. -/
def runExecs (s : Store) (n : ℕ) : List Request → List (ℕ × TxnExec)
  | [] => []
  | q :: qs => (requestExecs s q).map (fun E => (n, E)) ++ runExecs (s.after q) (n + 1) qs

end Store

/-- The compare `mod_revision of k = r`. -/
def Compare.modEqual (k : Bytes) (r : ℤ) (c : Compare) : Bool :=
  c.key = k && c.target = CompareTarget.mod && c.result = CompareResult.equal &&
    c.targetUnion = some (.modRevision r)

/-- A put of `k` or a `delete_range` covering `k`. -/
def RequestOp.writesKey (k : Bytes) : RequestOp → Bool
  | .requestPut r => r.key = k
  | .requestDeleteRange r => inInterval r.key r.rangeEnd k
  | _ => false

namespace TxnExec

/-- The operations of the chosen branch that the execution ran to completion. -/
def ran (E : TxnExec) : List RequestOp := E.before.ranOps (E.before.branch E.req)

/-- The execution compares the `mod_revision` of `k` with `r`, takes its success
    branch and performs a put of `k` or a deletion covering `k` in it. -/
def locks (k : Bytes) (r : ℤ) (E : TxnExec) : Bool :=
  E.req.compare.any (Compare.modEqual k r) && E.req.compare.all E.before.evalCompare &&
    E.ran.any (RequestOp.writesKey k)

/-- The events that the execution adds to the history. -/
def events (E : TxnExec) : List StoredEvent :=
  ((E.before.txn E.req).2.tx.drop E.before.tx.length).flatMap BroadcastBatch.events

/-- The version of `k` that the execution replaces is the one with
    `mod_revision` `r`: it is current when the compares are evaluated, and the
    first event of `k` of the execution records it as the previous entry. -/
def Replaces (k : Bytes) (r : ℤ) (E : TxnExec) : Prop :=
  ∃ kv, E.before.kvs.get? k = some kv ∧ kv.modRevision = r ∧
    ∃ pre e post, E.events = pre ++ e :: post ∧ (∀ e' ∈ pre, e'.kv.key ≠ k) ∧ e.kv.key = k ∧
      e.prevKv = some kv

/-- `F` runs inside one of the operations of the branch that `E` takes. -/
def Encloses (E F : TxnExec) : Prop := ∃ i rest, F.path = E.path ++ i :: rest

end TxnExec

namespace Store

/-! ## Versions are never reused -/

/-- `s'` is `s` or a later state of it. -/
def Later (s s' : Store) : Prop := ∃ bs, Advances s s' bs

theorem Later.refl (s : Store) : Later s s := ⟨[], Advances.of_frame rfl rfl rfl⟩

theorem Later.trans {s s' s'' : Store} (h : Later s s') (h' : Later s' s'') : Later s s'' := by
  obtain ⟨bs, hbs⟩ := h
  obtain ⟨cs, hcs⟩ := h'
  exact ⟨bs ++ cs, hbs.trans hcs⟩

theorem later_effect (s : Store) (ls : List LeafOp) : Later s (s.effect ls) := by
  obtain ⟨bs, hbs, -⟩ := effect_logs s ls
  exact ⟨bs, hbs.toAdvances⟩

theorem later_execOp (s : Store) (op : RequestOp) : Later s (execOp s op).2 := by
  rw [(execOp_performs s op).2]
  exact later_effect s _

theorem later_execOps (s : Store) (ops : List RequestOp) : Later s (execOps s ops).2 := by
  rw [(execOps_performs s ops).2]
  exact later_effect s _

/-- No entry was modified after the current revision. -/
def EntriesOk (s : Store) : Prop := ∀ k kv, s.kvs.get? k = some kv → kv.modRevision ≤ s.revision

theorem EntriesOk.later {s s' : Store} (hs : s.EntriesOk) (h : Later s s') : s'.EntriesOk := by
  obtain ⟨bs, hbs⟩ := h
  intro k kv hk
  rcases hbs.get?_some_cases hk with ⟨-, hold⟩ | ⟨-, -, hle, -⟩
  · have := hs k kv hold
    have := hbs.revision_le
    omega
  · exact hle

/-- The version of `k` with `mod_revision` `r` is gone. -/
def Past (k : Bytes) (r : ℤ) (s : Store) : Prop :=
  r ≤ s.revision ∧ ∀ kv, s.kvs.get? k = some kv → kv.modRevision ≠ r

/-- A version that is gone never comes back. -/
theorem Past.later {k : Bytes} {r : ℤ} {s s' : Store} (hs : Past k r s) (h : Later s s') :
    Past k r s' := by
  obtain ⟨bs, hbs⟩ := h
  have hrev := hbs.revision_le
  refine ⟨by have := hs.1; omega, fun kv hk => ?_⟩
  rcases hbs.get?_some_cases hk with ⟨-, hold⟩ | ⟨-, hlt, -, -⟩
  · exact hs.2 kv hold
  · have := hs.1
    omega

/-- The `mod_revision` compare finds the key at that version. -/
theorem current_of_modEqual {s : Store} {k : Bytes} {r : ℤ} {c : Compare} (hr : 1 ≤ r)
    (hc : c.modEqual k r = true) (h : s.evalCompare c = true) :
    ∃ kv, s.kvs.get? k = some kv ∧ kv.modRevision = r := by
  simp only [Compare.modEqual, Bool.and_eq_true, decide_eq_true_eq] at hc
  obtain ⟨⟨⟨rfl, ht⟩, hres⟩, hu⟩ := hc
  have hmod : ((s.kvs.get? c.key).map Kv.modRevision).getD 0 = r := by
    simpa [evalCompare, ht, hres, hu, CompareTarget.version, CompareTarget.create,
      CompareTarget.mod, CompareResult.equal, CompareResult.notEqual] using h
  cases hget : s.kvs.get? c.key with
  | none =>
    rw [hget] at hmod
    simp only [Option.map_none, Option.getD_none] at hmod
    omega
  | some kv =>
    rw [hget] at hmod
    exact ⟨kv, rfl, hmod⟩

/-! ## A write of the key ends the version -/

theorem put_get?_modRevision (s : Store) (r : PutRequest) :
    ∃ kv, (s.put r.key r.value r.lease r.prevKv r.ignoreValue r.ignoreLease).2.kvs.get? r.key =
      some kv ∧ kv.modRevision = s.revision + 1 := by
  simp [put, emit]

/-- An operation that writes `k` and does not panic leaves no version of `k` from
    before. -/
theorem past_execOp {s s' : Store} {k : Bytes} {r : ℤ} {op : RequestOp} {resp : ResponseOp}
    (hr : r ≤ s.revision) (hw : op.writesKey k = true) (h : execOp s op = (.ok resp, s')) :
    Past k r s' := by
  have hs' : s' = (execOp s op).2 := by rw [h]
  have hrev : s.revision ≤ s'.revision := by
    obtain ⟨bs, hbs⟩ := later_execOp s op
    rw [hs']
    exact hbs.revision_le
  refine ⟨hr.trans hrev, fun kv hkv => ?_⟩
  cases op with
  | requestPut p =>
    simp only [RequestOp.writesKey, decide_eq_true_eq] at hw
    subst hw
    obtain ⟨kv', hget, hmod⟩ := put_get?_modRevision s p
    rw [hs', execOp] at hkv
    rw [hget] at hkv
    have := Option.some.inj hkv
    subst this
    omega
  | requestDeleteRange d =>
    have hwrites : inInterval d.key d.rangeEnd k = true := hw
    have hdelete : s' = (s.deleteRange d.key d.rangeEnd d.prevKv).2 := by
      rw [hs', execOp]
      split <;> simp only [*]
    rw [hdelete, deleteRange_get?, if_pos ⟨ordered_of_inInterval hwrites, hwrites⟩] at hkv
    cases hkv
  | requestRange r => cases hw
  | requestTxn r => cases hw
  | unset => cases hw

theorem execOps_cons_ok {s s' : Store} {op : RequestOp} {ops : List RequestOp} {resp : ResponseOp}
    (h : execOp s op = (.ok resp, s')) : (execOps s (op :: ops)).2 = (execOps s' ops).2 := by
  rw [execOps, h]
  dsimp only
  split <;> simp_all

theorem execOps_cons_error {s s' : Store} {op : RequestOp} {ops : List RequestOp} {p : Panic}
    (h : execOp s op = (.error p, s')) : (execOps s (op :: ops)).2 = s' := by
  rw [execOps, h]

theorem past_execOps {k : Bytes} {r : ℤ} {ops : List RequestOp} : ∀ {s : Store},
    r ≤ s.revision → (s.ranOps ops).any (RequestOp.writesKey k) = true →
    Past k r (execOps s ops).2 := by
  induction ops with
  | nil =>
    intro s _ h
    cases h
  | cons op ops ih =>
    intro s hr h
    rw [ranOps] at h
    split at h
    · cases h
    · rename_i resp s' he
      rw [execOps_cons_ok he]
      rw [List.any_cons, Bool.or_eq_true] at h
      rcases h with h | h
      · exact (past_execOp hr h he).later (later_execOps s' ops)
      · refine ih ?_ h
        obtain ⟨bs, hbs⟩ := later_execOp s op
        rw [he] at hbs
        exact hr.trans hbs.revision_le

/-- Operations that return normally all ran. -/
theorem ranOps_of_isOk {ops : List RequestOp} : ∀ {s : Store},
    (execOps s ops).1.isOk = true → s.ranOps ops = ops := by
  induction ops with
  | nil => intro s _; rfl
  | cons op ops ih =>
    intro s h
    rw [execOps] at h
    rw [ranOps]
    rcases he : execOp s op with ⟨o, s'⟩
    rw [he] at h
    cases o with
    | error p => cases h
    | ok resp =>
      have hrest : (execOps s' ops).1.isOk = true := by
        rcases he' : execOps s' ops with ⟨o', s''⟩
        cases o' with
        | error p =>
          simp only [he'] at h
          cases h
        | ok resps => rfl
      show op :: s'.ranOps ops = op :: ops
      rw [ih hrest]

theorem txn_fst_isOk (s : Store) (q : TxnRequest) :
    (s.txn q).1.isOk = (execOps s (s.branch q)).1.isOk := by
  rw [(txn_performs s q).1, (execOps_performs s (s.branch q)).1, txnLeaves_eq]

theorem txn_snd (s : Store) (q : TxnRequest) : (s.txn q).2 = (execOps s (s.branch q)).2 := by
  rw [(txn_performs s q).2, (execOps_performs s (s.branch q)).2, txnLeaves_eq]

/-! ## The locking executions of a trace -/

/-- What holds of the executions `L` that are performed between `s` and `s'`. -/
structure Trace (k : Bytes) (r : ℤ) (s s' : Store) (L : List TxnExec) : Prop where
  before : ∀ E ∈ L, Later s E.before
  past : ∀ E ∈ L, E.locks k r = true → Past k r s'
  replaces : ∀ E ∈ L, E.locks k r = true → E.Replaces k r
  nested : L.Pairwise fun E F => E.locks k r = true → F.locks k r = true → E.Encloses F

section

variable {k : Bytes} {r : ℤ} {s s' s'' : Store} {L M : List TxnExec}

theorem Trace.nil (s : Store) : Trace k r s s' [] := ⟨by simp, by simp, by simp, by simp⟩

theorem locks_current {E : TxnExec} (hr : 1 ≤ r) (hE : E.locks k r = true) :
    ∃ kv, E.before.kvs.get? k = some kv ∧ kv.modRevision = r := by
  simp only [TxnExec.locks, Bool.and_eq_true, List.any_eq_true, List.all_eq_true] at hE
  obtain ⟨⟨⟨c, hc, hmod⟩, hall⟩, -⟩ := hE
  exact current_of_modEqual hr hmod (hall c hc)

/-- Once the version is gone, no execution locks it. -/
theorem Past.not_locks (hr : 1 ≤ r) (h : Past k r s) {E : TxnExec} (hE : Later s E.before) :
    ¬ E.locks k r = true := by
  intro hlock
  obtain ⟨kv, hkv, hmod⟩ := locks_current hr hlock
  exact (h.later hE).2 kv hkv hmod

theorem Trace.append (hr : 1 ≤ r) (h : Trace k r s s' L) (hs : Later s s')
    (h' : Trace k r s' s'' M) (hs' : Later s' s'') : Trace k r s s'' (L ++ M) where
  before := List.forall_mem_append.mpr ⟨h.before, fun E hE => hs.trans (h'.before E hE)⟩
  past := List.forall_mem_append.mpr ⟨fun E hE hl => (h.past E hE hl).later hs', h'.past⟩
  replaces := List.forall_mem_append.mpr ⟨h.replaces, h'.replaces⟩
  nested := by
    refine List.pairwise_append.mpr ⟨h.nested, h'.nested, ?_⟩
    intro E hE F hF hlE hlF
    exact absurd hlF ((h.past E hE hlE).not_locks hr (h'.before F hF))

/-- A transaction that ends the version of `k` current at its start records that
    version in its first event of `k`. -/
theorem replaces_of_past {E : TxnExec} (hr : 1 ≤ r) (hlock : E.locks k r = true)
    (hpast : Past k r (E.before.txn E.req).2) : E.Replaces k r := by
  obtain ⟨kv, hkv, hmod⟩ := locks_current hr hlock
  obtain ⟨bs, hbs, -⟩ := effect_logs E.before (E.before.performed (E.before.txnLeaves E.req))
  rw [← txn_effect] at hbs
  have hevents : E.events = bs.flatMap BroadcastBatch.events := by
    rw [TxnExec.events, hbs.tx, List.drop_left]
  have hchanges : changes bs = E.events.map StoredEvent.change := by
    rw [hevents, changes, List.map_flatMap]
  have htouched : ∃ e ∈ E.events, e.kv.key = k := by
    rcases hbs.toAdvances.get?_cases k with ⟨-, hsame⟩ | ⟨b, hb, e, he, hek, -⟩
    · exact absurd hmod (hpast.2 kv (by rw [hsame, hkv]))
    · exact ⟨e, by rw [hevents]; exact List.mem_flatMap.mpr ⟨b, hb, he⟩, hek⟩
  obtain ⟨e, he⟩ : ∃ e, E.events.find? (fun e => e.kv.key = k) = some e := by
    rw [← Option.isSome_iff_exists, List.find?_isSome]
    simpa using htouched
  obtain ⟨hek, pre, post, hsplit, hpre⟩ := List.find?_eq_some_iff_append.mp he
  have hek : e.kv.key = k := by simpa using hek
  have hpre : ∀ e' ∈ pre, e'.kv.key ≠ k := by simpa using hpre
  have hprev : e.prevKv = E.before.kvs.get? e.kv.key := by
    have hpre' : ∀ c ∈ pre.map StoredEvent.change, c.key ≠ e.change.key := by
      intro c hc
      obtain ⟨e', he', rfl⟩ := List.mem_map.mp hc
      rw [show e.change.key = k from hek]
      exact hpre e' he'
    have hsplit' : changes bs =
        pre.map StoredEvent.change ++ e.change :: post.map StoredEvent.change := by
      rw [hchanges, hsplit, List.map_append, List.map_cons]
    exact hbs.justified.first hsplit' hpre'
  exact ⟨kv, hkv, hmod, pre, e, post, hsplit, hpre, hek, by rw [hprev, hek, hkv]⟩

end

mutual

theorem txnExecs_path (s : Store) (path : List ℕ) : ∀ q : TxnRequest,
    ∀ E ∈ txnExecs s path q, ∃ rest, E.path = path ++ rest
  | .mk compare success failure => by
    intro E hE
    rw [txnExecs, List.mem_cons] at hE
    rcases hE with rfl | hE
    · exact ⟨[], by simp⟩
    · have h : ∃ j rest, E.path = path ++ j :: rest := by
        split_ifs at hE
        · exact opsExecs_path s path 0 success E hE
        · exact opsExecs_path s path 0 failure E hE
      obtain ⟨j, rest, h⟩ := h
      exact ⟨j :: rest, h⟩

theorem opExecs_path (s : Store) (path : List ℕ) : ∀ op : RequestOp,
    ∀ E ∈ opExecs s path op, ∃ rest, E.path = path ++ rest
  | .requestTxn q => by
    rw [opExecs]
    exact txnExecs_path s path q
  | .requestRange _ => by simp [opExecs]
  | .requestPut _ => by simp [opExecs]
  | .requestDeleteRange _ => by simp [opExecs]
  | .unset => by simp [opExecs]

theorem opsExecs_path (s : Store) (path : List ℕ) (i : ℕ) : ∀ ops : List RequestOp,
    ∀ E ∈ opsExecs s path i ops, ∃ j rest, E.path = path ++ j :: rest
  | [] => by simp [opsExecs]
  | op :: ops => by
    intro E hE
    rw [opsExecs, List.mem_append] at hE
    rcases hE with hE | hE
    · obtain ⟨rest, h⟩ := opExecs_path s (path ++ [i]) op E hE
      exact ⟨i, rest, by rw [h, List.append_assoc]; rfl⟩
    · split at hE
      · cases hE
      · rename_i s' _
        exact opsExecs_path s' path (i + 1) ops E hE

end

mutual

theorem txnExecs_trace {k : Bytes} {r : ℤ} (hr : 1 ≤ r) {s : Store} (hs : s.EntriesOk)
    (path : List ℕ) : ∀ q : TxnRequest, Trace k r s (s.txn q).2 (txnExecs s path q)
  | .mk compare success failure => by
    have hops : Trace k r s (s.txn (.mk compare success failure)).2
        (if compare.all s.evalCompare then opsExecs s path 0 success
         else opsExecs s path 0 failure) := by
      rw [txn_snd, branch, TxnRequest.compare, TxnRequest.success, TxnRequest.failure]
      split_ifs
      · exact opsExecs_trace hr hs path 0 success
      · exact opsExecs_trace hr hs path 0 failure
    rw [txnExecs]
    -- the transaction itself: its own write ends the version
    have hpast : TxnExec.locks k r ⟨path, .mk compare success failure, s⟩ = true →
        Past k r (s.txn (.mk compare success failure)).2 := by
      intro hlock
      obtain ⟨kv, hkv, hmod⟩ := locks_current hr hlock
      rw [txn_snd]
      refine past_execOps ?_ (Bool.and_eq_true_iff.mp hlock).2
      rw [← hmod]
      exact hs k kv hkv
    refine ⟨?_, ?_, ?_, ?_⟩
    · exact List.forall_mem_cons.mpr ⟨Later.refl s, hops.before⟩
    · exact List.forall_mem_cons.mpr ⟨hpast, hops.past⟩
    · exact List.forall_mem_cons.mpr
        ⟨fun hlock => replaces_of_past hr hlock (hpast hlock), hops.replaces⟩
    · refine List.pairwise_cons.mpr ⟨?_, hops.nested⟩
      intro F hF _ _
      split_ifs at hF
      · exact opsExecs_path s path 0 success F hF
      · exact opsExecs_path s path 0 failure F hF

theorem opExecs_trace {k : Bytes} {r : ℤ} (hr : 1 ≤ r) {s : Store} (hs : s.EntriesOk)
    (path : List ℕ) : ∀ op : RequestOp, Trace k r s (execOp s op).2 (opExecs s path op)
  | .requestTxn q => by
    have h := txnExecs_trace hr (k := k) hs path q
    rw [opExecs, execOp]
    split
    · rename_i he
      rwa [he] at h
    · rename_i he
      rwa [he] at h
  | .requestRange _ => by rw [opExecs]; exact Trace.nil s
  | .requestPut _ => by rw [opExecs]; exact Trace.nil s
  | .requestDeleteRange _ => by rw [opExecs]; exact Trace.nil s
  | .unset => by rw [opExecs]; exact Trace.nil s

theorem opsExecs_trace {k : Bytes} {r : ℤ} (hr : 1 ≤ r) {s : Store} (hs : s.EntriesOk)
    (path : List ℕ) (i : ℕ) : ∀ ops : List RequestOp,
    Trace k r s (execOps s ops).2 (opsExecs s path i ops)
  | [] => by rw [opsExecs]; exact Trace.nil s
  | op :: ops => by
    have hop := opExecs_trace hr (k := k) hs (path ++ [i]) op
    have hlater := later_execOp s op
    rw [opsExecs]
    split
    · rename_i p s' he
      rw [he] at hop
      rw [execOps_cons_error he, List.append_nil]
      exact hop
    · rename_i resp s' he
      rw [he] at hop hlater
      rw [execOps_cons_ok he]
      exact hop.append hr hlater (opsExecs_trace hr (hs.later hlater) path (i + 1) ops)
        (later_execOps s' ops)

end

theorem requestExecs_trace {k : Bytes} {r : ℤ} (hr : 1 ≤ r) {s : Store} (hs : s.EntriesOk)
    (q : Request) : Trace k r s (s.after q) (requestExecs s q) := by
  cases q with
  | txn q =>
    rw [after_txn]
    exact txnExecs_trace hr hs [] q
  | _ => exact Trace.nil s

/-- Of the executions of a run that lock version `r` of `k`, any two are in the
    same request, the later one inside the earlier. -/
theorem runExecs_trace {k : Bytes} {r : ℤ} (hr : 1 ≤ r) (qs : List Request) : ∀ {s : Store},
    s.EntriesOk → ∀ n,
    (∀ p ∈ runExecs s n qs, n ≤ p.1 ∧ Later s p.2.before ∧
      (p.2.locks k r = true → p.2.Replaces k r)) ∧
    (runExecs s n qs).Pairwise fun p p' => p.2.locks k r = true → p'.2.locks k r = true →
      p.1 = p'.1 ∧ p.2.Encloses p'.2 := by
  induction qs with
  | nil => intro s _ n; simp [runExecs]
  | cons q qs ih =>
    intro s hs n
    have hq := requestExecs_trace hr (k := k) hs q
    have hlater : Later s (s.after q) := after_advances s q
    obtain ⟨hrest, hpairs⟩ := ih (hs.later hlater) (n + 1)
    rw [runExecs]
    refine ⟨List.forall_mem_append.mpr ⟨?_, ?_⟩, List.pairwise_append.mpr ⟨?_, hpairs, ?_⟩⟩
    · rintro p hp
      obtain ⟨E, hE, rfl⟩ := List.mem_map.mp hp
      exact ⟨le_rfl, hq.before E hE, hq.replaces E hE⟩
    · intro p hp
      obtain ⟨hn, hb, hrep⟩ := hrest p hp
      exact ⟨by omega, hlater.trans hb, hrep⟩
    · rw [List.pairwise_map]
      exact hq.nested.imp fun h hE hF => ⟨rfl, h hE hF⟩
    · rintro p hp p' hp' hlock hlock'
      obtain ⟨E, hE, rfl⟩ := List.mem_map.mp hp
      exact absurd hlock' ((hq.past E hE hlock).not_locks hr (hrest p' hp').2.1)

/-- A transaction that returns normally ran all operations of its branch. -/
theorem ran_of_isOk {E : TxnExec} (h : (E.before.txn E.req).1.isOk = true) :
    E.ran = E.before.branch E.req := by
  rw [txn_fst_isOk] at h
  exact ranOps_of_isOk h

/-- In every run, each transaction that compares the `mod_revision` of `k` with
    `r`, takes its success branch and writes `k` there replaces the version of `k`
    with `mod_revision` `r`; and of two such transactions one is an operation
    inside the other, within the same client request. A transaction that returns
    normally has run all operations of the branch it takes. -/
theorem locks_nested (k : Bytes) (r : ℤ) (hr : 1 ≤ r) (qs : List Request) :
    (∀ p ∈ runExecs Store.new 0 qs, p.2.locks k r = true → p.2.Replaces k r) ∧
    ((runExecs Store.new 0 qs).Pairwise fun p p' =>
      p.2.locks k r = true → p'.2.locks k r = true → p.1 = p'.1 ∧ p.2.Encloses p'.2) ∧
    ∀ p ∈ runExecs Store.new 0 qs, (p.2.before.txn p.2.req).1.isOk = true →
      p.2.ran = p.2.before.branch p.2.req := by
  have hnew : Store.new.EntriesOk := by
    intro k kv hk
    cases hk
  obtain ⟨h1, h2⟩ := runExecs_trace hr qs (k := k) hnew 0
  exact ⟨fun p hp => (h1 p hp).2.2, h2, fun p _ => ran_of_isOk⟩

/-- Two clients race to update version 2 of `a`, the key is deleted and created
    again, and a third client tries with version 2. -/
theorem locks_nested_race :
    let cas : Request := .txn (.mk [⟨CompareResult.equal, CompareTarget.mod, [97],
      some (.modRevision 2)⟩] [.requestPut { key := [97] }] [])
    let qs : List Request := [.put { key := [97] }, cas, cas, .deleteRange { key := [97] },
      .put { key := [97] }, cas]
    ((runExecs Store.new 0 qs).filter fun p => p.2.locks [97] 2).map Prod.fst = [1] ∧
    ∀ p ∈ runExecs Store.new 0 qs, p.2.locks [97] 2 = true → p.2.Replaces [97] 2 :=
  ⟨by decide, (locks_nested [97] 2 (by decide) _).1⟩

/-- A transaction on version 2 of `a` whose success branch holds a transaction on
    the same version, both putting `a`: both take their success branch. -/
theorem nested_locks_both_succeed :
    let lock : Compare := ⟨CompareResult.equal, CompareTarget.mod, [97], some (.modRevision 2)⟩
    let qs : List Request := [.put { key := [97] },
      .txn (.mk [lock] [.requestTxn (.mk [lock] [.requestPut { key := [97] }] []),
        .requestPut { key := [97] }] [])]
    ((runExecs Store.new 0 qs).filter fun p => p.2.locks [97] 2).map
      (fun p => (p.1, p.2.path)) = [(1, []), (1, [0])] := by
  decide

end Store

end Kubenyx.EtcdMem
