import Kubenyx.EtcdMem.KeySelection
import Kubenyx.EtcdMem.WatchDelivery

/-!
# List, then watch

A client that wants to follow a part of the key space lists it, and watches it from the
revision after the one in the header of the list. It stores what the list has under the keys,
and applies the events of the watch to that, one response after the other.

* `snapshot_of_advances`: the snapshot of the history at a revision is the key space that the
  store had then.
* `mirror_follows`: in every interleaving, what the client has after any of the responses is
  its part of the snapshot at the revision of that response; and when no batch is left to be
  received it is its part of the store.
-/

namespace Kubenyx.EtcdMem

open Kubenyx.Common

/-! ## The client -/

/-- The entries of a list response, under their keys. -/
def listed (resp : RangeResponse) : OrdMap Bytes KeyValue :=
  OrdMap.ofList (resp.kvs.map fun kv => (kv.key, kv))

/-- A PUT stores its entry under its key, a DELETE removes the key. -/
def observe (m : OrdMap Bytes KeyValue) (e : Event) : OrdMap Bytes KeyValue :=
  match e.kv, e.type with
  | some kv, .put => m.insert kv.key kv
  | some kv, .delete => m.remove kv.key
  | none, _ => m

/-- The events of some responses, one after the other. -/
def follow (m : OrdMap Bytes KeyValue) (rs : List WatchResponse) : OrdMap Bytes KeyValue :=
  (rs.flatMap WatchResponse.events).foldl observe m

/-- The revision that the client has reached: that of the last response, or of the list. -/
def reached (listRevision : ℤ) (rs : List WatchResponse) : ℤ :=
  (rs.getLast?.map WatchResponse.revision).getD listRevision

/-! ## The history -/

/-- The key space at a revision, as the history has it. -/
def snapshot (tx : List BroadcastBatch) (rev : ℤ) : OrdMap Bytes Kv :=
  OrdMap.empty.replay (changes (tx.filter fun b => b.revision ≤ rev))

/-- The entry as a client sees it. -/
def wire (kv : Kv) : KeyValue := kvToProto kv false

/-- A later snapshot is an earlier one with the batches in between. -/
theorem snapshot_eq_replay {s : Store} (hs : s.Reachable) {lo hi : ℤ} (h : lo ≤ hi) :
    snapshot s.tx hi =
      (snapshot s.tx lo).replay (changes (window BroadcastBatch.revision (lo + 1) hi s.tx)) := by
  rw [snapshot, hs.tx_numbered.filter_le h, changes_append, OrdMap.replay_append]
  rfl

/-- The snapshot at the revision of an earlier store is its key space. -/
theorem snapshot_of_advances {s s' : Store} {bs : List BroadcastBatch} (hs : s.Reachable)
    (h : Advances s s' bs) : snapshot s'.tx s.revision = s.kvs := by
  have hold : s.tx.filter (fun b => b.revision ≤ s.revision) = s.tx :=
    List.filter_eq_self.mpr fun b hb => by simpa using hs.tx_le hb
  have hnew : bs.filter (fun b => b.revision ≤ s.revision) = [] := by
    rw [List.filter_eq_nil_iff]
    intro b hb
    have := (h.batch_bounds hb).1
    simp only [decide_eq_true_eq]
    omega
  rw [snapshot, h.tx, List.filter_append, hold, hnew, List.append_nil]
  exact hs.advances.kvs.symm

/-! ## What the responses hold -/

theorem mem_kvs_listed {l : List KeyValue} (hn : (l.map KeyValue.key).Nodup) {k : Bytes}
    {kv : KeyValue} :
    (OrdMap.ofList (l.map fun kv => (kv.key, kv))).get? k = some kv ↔ kv ∈ l ∧ kv.key = k := by
  have hkeys : ((l.map fun kv => (kv.key, kv)).map Prod.fst).Nodup := by
    rwa [List.map_map]
  rw [← OrdMap.mem_entries_iff, (OrdMap.ofList_perm hkeys).mem_iff]
  simp only [List.mem_map, Prod.mk.injEq]
  constructor
  · rintro ⟨kv', hmem, rfl, rfl⟩
    exact ⟨hmem, rfl⟩
  · rintro ⟨hmem, rfl⟩
    exact ⟨kv, hmem, rfl, rfl⟩

/-- A list of an interval holds the part of the key space that lies in it. -/
theorem listed_view {s : Store} (hs : s.Reachable) {key rangeEnd : Bytes}
    (ho : Ordered key rangeEnd) :
    ∃ resp, s.rangeResponse { key := key, rangeEnd := rangeEnd } = .ok resp ∧
      resp.header = s.header ∧ OrdMap.View (inInterval key rangeEnd) wire s.kvs (listed resp) := by
  refine ⟨_, by rw [Store.rangeResponse, hs.rangeKvs_plain ho false false], rfl, fun k => ?_⟩
  have hkeys : (((s.selectedKvs key rangeEnd).map wire).map KeyValue.key).Nodup := by
    rw [List.map_map]
    show ((s.selectedKvs key rangeEnd).map Kv.key).Nodup
    rw [hs.map_key_selectedKvs]
    exact Store.selected_nodup s key rangeEnd
  have hmem : ∀ kv, (OrdMap.ofList (((s.selectedKvs key rangeEnd).map wire).map
      fun kv => (kv.key, kv))).get? k = some kv ↔
        ∃ old, s.kvs.get? k = some old ∧ inInterval key rangeEnd k = true ∧ wire old = kv := by
    intro kv
    rw [mem_kvs_listed hkeys, List.mem_map]
    constructor
    · rintro ⟨⟨old, hold, rfl⟩, rfl⟩
      obtain ⟨hget, hin⟩ := hs.mem_selectedKvs.mp hold
      exact ⟨old, hget, hin, rfl⟩
    · rintro ⟨old, hget, hin, rfl⟩
      obtain rfl : old.key = k := (hs.entry hget).1
      exact ⟨⟨old, hs.mem_selectedKvs.mpr ⟨hget, hin⟩, rfl⟩, rfl⟩
  refine Option.ext fun kv => ?_
  refine (hmem kv).trans ?_
  by_cases hin : inInterval key rangeEnd k = true
  · simp [hin, Option.map_eq_some_iff]
  · simp [hin]

/-- What the client does with an event of a watch is the change that the event describes. -/
theorem observe_event (m : OrdMap Bytes KeyValue) (h : WatchHandle) (e : StoredEvent) :
    observe m (h.event e) = m.apply (e.change.map wire) := by
  have hevent : (h.event e).kv = some (wire e.kv) ∧ (h.event e).type = e.evType := by
    unfold WatchHandle.event
    split_ifs <;> exact ⟨rfl, rfl⟩
  unfold observe OrdMap.apply
  rw [hevent.1, hevent.2]
  cases htype : e.evType with
  | put =>
    have hnext : (e.change.map wire).next = some (wire e.kv) := by
      simp [Change.map, StoredEvent.change, htype]
    rw [hnext]
    rfl
  | delete =>
    have hnext : (e.change.map wire).next = none := by
      simp [Change.map, StoredEvent.change, htype]
    rw [hnext]
    rfl

/-- The events of the responses for some batches are those of the batches that match. -/
theorem flatMap_events_deliver (h : WatchHandle) (bs : List BroadcastBatch) :
    (bs.filterMap h.deliver).flatMap WatchResponse.events =
      bs.flatMap fun b => h.matched b.events := by
  induction bs with
  | nil => rfl
  | cons b bs ih =>
    rw [List.filterMap_cons, List.flatMap_cons, ← ih, WatchHandle.deliver, WatchHandle.response]
    split_ifs with hnone
    · simp [hnone]
    · simp

/-- Applying the responses for some batches replays the changes of the watched keys. -/
theorem follow_deliver {h : WatchHandle} (hf : h.filter = 0) (m : OrdMap Bytes KeyValue)
    (bs : List BroadcastBatch) :
    follow m (bs.filterMap h.deliver) =
      m.replay (((changes bs).filter fun c => inInterval h.key h.rangeEnd c.key).map
        (Change.map wire)) := by
  have hone : ∀ (es : List StoredEvent) (m : OrdMap Bytes KeyValue),
      (h.matched es).foldl observe m = m.replay (((es.map StoredEvent.change).filter
        fun c => inInterval h.key h.rangeEnd c.key).map (Change.map wire)) := by
    intro es m
    have hmatch : (fun e : StoredEvent => h.matches e.evType e.kv) =
        fun e => inInterval h.key h.rangeEnd e.change.key := by
      funext e
      exact WatchHandle.matches_of_filter_eq_zero hf e.evType e.kv
    simp only [WatchHandle.matched, OrdMap.replay, hmatch, List.foldl_map, List.filter_map,
      observe_event]
    rfl
  rw [follow, flatMap_events_deliver]
  induction bs generalizing m with
  | nil => rfl
  | cons b bs ih =>
    have hcons : changes (b :: bs) = b.events.map StoredEvent.change ++ changes bs :=
      List.flatMap_cons
    rw [List.flatMap_cons, List.foldl_append, hone, ih, hcons, List.filter_append, List.map_append,
      OrdMap.replay_append]

/-! ## Following -/

/-- Of responses in increasing order, those up to the revision of the last of the first few are
    just these. -/
theorem filter_reached {seen rest : List WatchResponse} {lo : ℤ}
    (hsorted : (seen ++ rest).Pairwise fun r r' => r.revision < r'.revision)
    (hlo : ∀ r ∈ seen ++ rest, lo < r.revision) :
    (seen ++ rest).filter (fun r => r.revision ≤ reached lo seen) = seen := by
  obtain ⟨hseen, -, hcross⟩ := List.pairwise_append.mp hsorted
  have hkeep : ∀ r ∈ seen, r.revision ≤ reached lo seen := by
    intro r hr
    obtain ⟨front, last, rfl⟩ := (List.eq_nil_or_concat seen).resolve_left (List.ne_nil_of_mem hr)
    rw [List.concat_eq_append] at *
    simp only [reached, List.getLast?_append, List.getLast?_singleton, Option.some_or,
      Option.map_some, Option.getD_some]
    rcases List.mem_append.mp hr with hr | hr
    · exact ((List.pairwise_append.mp hseen).2.2 r hr last (by simp)).le
    · rw [List.mem_singleton.mp hr]
  have hdrop : ∀ r ∈ rest, reached lo seen < r.revision := by
    intro r hr
    rcases List.eq_nil_or_concat seen with rfl | ⟨front, last, rfl⟩
    · exact hlo r (by simpa using hr)
    · rw [List.concat_eq_append] at *
      simp only [reached, List.getLast?_append, List.getLast?_singleton, Option.some_or,
        Option.map_some, Option.getD_some]
      exact hcross last (by simp) r hr
  rw [List.filter_append, List.filter_eq_self.mpr fun r hr => by simpa using hkeep r hr,
    List.filter_eq_nil_iff.mpr fun r hr => by simpa using hdrop r hr, List.append_nil]

/-- The responses up to a revision are those for the window that ends there. -/
theorem filter_deliver (h : WatchHandle) {lo rev hi : ℤ} (hle : rev ≤ hi)
    (tx : List BroadcastBatch) :
    ((window BroadcastBatch.revision lo hi tx).filterMap h.deliver).filter
        (fun r => r.revision ≤ rev) =
      (window BroadcastBatch.revision lo rev tx).filterMap h.deliver := by
  have hrev : ∀ b : BroadcastBatch, (h.deliver b).filter (fun r => r.revision ≤ rev) =
      if b.revision ≤ rev then h.deliver b else none := by
    intro b
    cases hd : h.deliver b with
    | none => simp
    | some r =>
      rw [Option.filter, (WatchHandle.response_eq_some hd).2]
      simp
  rw [List.filter_filterMap, window, window, List.filterMap_filter, List.filterMap_filter]
  refine List.filterMap_congr fun b _ => ?_
  rw [hrev b]
  by_cases hb : b.revision ≤ rev
  · have hhi : b.revision ≤ hi := hb.trans hle
    by_cases hlo : lo ≤ b.revision <;> simp [hb, hhi, hlo]
  · simp [hb]

/-- A client that has the list of a store, and the responses for the batches after it up to a
    revision, has its part of the snapshot at that revision. -/
theorem follow_window {s s₀ : Store} {bs : List BroadcastBatch} (hs : s.Reachable)
    (hs₀ : s₀.Reachable) (hadv : Advances s₀ s bs) {h : WatchHandle} (hf : h.filter = 0)
    {m : OrdMap Bytes KeyValue} (hm : OrdMap.View (inInterval h.key h.rangeEnd) wire s₀.kvs m)
    {rev : ℤ} (hrev : s₀.revision ≤ rev) :
    OrdMap.View (inInterval h.key h.rangeEnd) wire (snapshot s.tx rev)
      (follow m ((window BroadcastBatch.revision (s₀.revision + 1) rev s.tx).filterMap h.deliver)) := by
  rw [snapshot_eq_replay hs hrev, snapshot_of_advances hs₀ hadv, follow_deliver hf]
  exact hm.replay _

namespace WatchSvc

/-- List, then watch. A client lists an interval on a store `s₀`, and a watch without filters on
    the interval is created, when the store is at that revision or later, from the revision after
    the list. In every interleaving of the stream with the requests of all clients, what the client
    has after any of the responses is its part of the snapshot at the revision of that response;
    after all of them it is its part of the snapshot at `delivered_through`; and when the receiver
    has no batch left it is its part of the store. -/
theorem mirror_follows {s s₀ : Store} (hs : s.Reachable) (hs₀ : s₀.Reachable) (as : List Act)
    (σ : State) (hexec : exec step (subscribe s) as = some σ) (qs : List Request)
    (hrun : s₀.run qs = σ.store) (w : Watch) (hw : w ∈ σ.watches) (hfilter : w.handle.filter = 0)
    (hstart : w.startRevision = s₀.revision + 1) (hcreated : s₀.revision ≤ w.curRev)
    (ho : Ordered w.handle.key w.handle.rangeEnd) :
    ∃ resp, s₀.rangeResponse { key := w.handle.key, rangeEnd := w.handle.rangeEnd } = .ok resp ∧
      resp.header.revision = s₀.revision ∧
      (∀ seen rest, batchesFor w.serial σ.out = seen ++ rest →
        OrdMap.View (inInterval w.handle.key w.handle.rangeEnd) wire
          (snapshot σ.store.tx (reached s₀.revision seen)) (follow (listed resp) seen)) ∧
      OrdMap.View (inInterval w.handle.key w.handle.rangeEnd) wire
        (snapshot σ.store.tx w.handle.deliveredThrough)
        (follow (listed resp) (batchesFor w.serial σ.out)) ∧
      (σ.bcast = σ.store.tx.length →
        OrdMap.View (inInterval w.handle.key w.handle.rangeEnd) wire σ.store.kvs
          (follow (listed resp) (batchesFor w.serial σ.out))) := by
  have hσ := inv_exec hs hexec
  have hok := hσ.watch w hw
  obtain ⟨bs, hbs⟩ := Store.run_advances s₀ qs
  rw [hrun] at hbs
  have hrev₀ := hs₀.revision_eq
  have hfirst : w.first = s₀.revision + 1 := by
    unfold Watch.first Watch.firstRevision
    split_ifs <;> omega
  have hcurrent := hok.curRev_le
  have hsent := hok.sent
  rw [hfirst] at hsent
  obtain ⟨resp, hresp, hheader, hview⟩ := listed_view hs₀ ho
  have hfollow : ∀ rev, s₀.revision ≤ rev → OrdMap.View _ wire (snapshot σ.store.tx rev)
      (follow (listed resp) ((window BroadcastBatch.revision (s₀.revision + 1) rev
        σ.store.tx).filterMap w.handle.deliver)) :=
    fun rev => follow_window hσ.reachable hs₀ hbs hfilter hview
  have hall := hfollow w.handle.deliveredThrough (hcreated.trans hcurrent)
  rw [← hsent] at hall
  refine ⟨resp, hresp, by rw [hheader]; rfl, fun seen rest hseen => ?_, hall, fun hqueue => ?_⟩
  · have hafter : ∀ r ∈ seen ++ rest,
        s₀.revision < r.revision ∧ r.revision ≤ w.handle.deliveredThrough := by
      intro r hr
      rw [← hseen, hsent] at hr
      obtain ⟨b, hb, hd⟩ := List.mem_filterMap.mp hr
      have hin := (mem_window.mp hb).2
      rw [(WatchHandle.response_eq_some hd).2]
      omega
    have hbounds : s₀.revision ≤ reached s₀.revision seen ∧
        reached s₀.revision seen ≤ w.handle.deliveredThrough := by
      rcases List.eq_nil_or_concat seen with rfl | ⟨front, last, rfl⟩
      · exact ⟨le_rfl, hcreated.trans hcurrent⟩
      · rw [List.concat_eq_append] at *
        simpa [reached] using And.intro (hafter last (by simp)).1.le (hafter last (by simp)).2
    have hsorted : (seen ++ rest).Pairwise fun r r' => r.revision < r'.revision := by
      rw [← hseen, hsent]
      exact deliver_pairwise hσ.reachable w.handle _ _
    have hseen_eq := filter_reached hsorted fun r hr => (hafter r hr).1
    rw [← hseen, hsent, filter_deliver _ hbounds.2] at hseen_eq
    have hmid := hfollow _ hbounds.1
    rwa [hseen_eq] at hmid
  · have hlatest : w.handle.deliveredThrough = σ.store.revision := by
      have hcaught := hok.caughtUp
      have hlast := hok.delivered_le
      have hrev := hσ.reachable.revision_eq
      omega
    have hnow := snapshot_of_advances hσ.reachable (Advances.of_frame (s := σ.store) rfl rfl rfl)
    rwa [hlatest, hnow] at hall

/-- A list of the keys with the prefix `a` after one put; then one of them is put again, another
    key is put, and the first is deleted, before the stream receives any of it. -/
theorem mirror_follows_prefix :
    let s₀ := Store.new.run [.put { key := [97], value := [1] }]
    let cr : WatchCreateRequest := { key := [97], rangeEnd := [98], startRevision := 3 }
    let as : List Act := [.message (.createRequest cr), .finish, .serve (.put { key := [97, 0] }),
      .serve (.put { key := [98] }), .serve (.deleteRange { key := [97] }), .recv, .recv, .recv]
    ∃ σ w resp, exec step (subscribe s₀) as = some σ ∧ w ∈ σ.watches ∧
      s₀.rangeResponse { key := [97], rangeEnd := [98] } = .ok resp ∧ resp.kvs.length = 1 ∧
      (batchesFor w.serial σ.out).map WatchResponse.revision = [3, 5] ∧
      OrdMap.View (inInterval [97] [98]) wire σ.store.kvs
        (follow (listed resp) (batchesFor w.serial σ.out)) := by
  intro s₀ cr as
  let qs : List Request := [.put { key := [97, 0] }, .put { key := [98] },
    .deleteRange { key := [97] }]
  let σ : State := (exec step (subscribe s₀) as).getD (subscribe s₀)
  let w : Watch := ⟨⟨1, [97], [98], false, filterMask [], 5⟩, 0, 3, 2, 0⟩
  have hexec : exec step (subscribe s₀) as = some σ := rfl
  have hw : w ∈ σ.watches := by decide
  obtain ⟨resp, hresp, -, -, -, hnow⟩ := mirror_follows (s := s₀) ⟨_, rfl⟩ ⟨_, rfl⟩ as σ hexec
    qs rfl w hw rfl rfl (by decide) (by decide)
  have hone : resp.kvs.length = 1 := by
    obtain rfl := Except.ok.inj hresp
    rfl
  exact ⟨σ, w, resp, hexec, hw, hresp, hone, by decide, hnow rfl⟩

end WatchSvc

end Kubenyx.EtcdMem
