import Kubenyx.EtcdMem.Watch

/-!
# What a watch stream delivers

A watch is created from a snapshot of the log and goes on with the batches of a
receiver that subscribed long before; `delivered_through` glues the two together.
The invariant is that everything sent for a live watch is the window of the
store's history from its first revision to its `delivered_through`, which is never
behind the receiver.

* `delivery`: in every interleaving a watch is sent exactly the batches of that
  window, each once and in order; when the receiver lags, the watch is cancelled
  and nothing more is sent for it.
* `progress_truthful_iff`: the answer to a progress request holds for the watches
  of the stream exactly when no batch that is still queued matters to one of them.
-/

namespace Kubenyx.EtcdMem

open Kubenyx.Common

/-- The response of a handle to a batch. -/
def WatchHandle.deliver (h : WatchHandle) (b : BroadcastBatch) : Option WatchResponse :=
  h.response b.revision b.events

/-- The revision in the header of a response. -/
def WatchResponse.revision (r : WatchResponse) : ℤ := (r.header.map ResponseHeader.revision).getD 0

namespace WatchHandle

variable {h : WatchHandle} {b : BroadcastBatch}

theorem response_eq_some {rev : ℤ} {evs : List StoredEvent} {r : WatchResponse}
    (hr : h.response rev evs = some r) : r.events ≠ [] ∧ r.revision = rev := by
  unfold response at hr
  split_ifs at hr with hm
  obtain rfl := Option.some.inj hr
  exact ⟨hm, rfl⟩

theorem offer_of_le (hb : b.revision ≤ h.deliveredThrough) : h.offer b = (h, none) := if_pos hb

theorem offer_of_lt (hb : h.deliveredThrough < b.revision) :
    h.offer b = ({ h with deliveredThrough := b.revision }, h.deliver b) :=
  if_neg (by omega)

end WatchHandle

namespace WatchSvc

/-! ## The batches sent for a watch -/

section Batches

variable {n : ℕ} {l m : List Sent}

theorem batchesFor_append : batchesFor n (l ++ m) = batchesFor n l ++ batchesFor n m := by
  simp [batchesFor]

theorem batchesFor_of_events_nil (h : ∀ x ∈ l, x.response.events = []) : batchesFor n l = [] := by
  rw [batchesFor, List.map_eq_nil_iff, List.filter_eq_nil_iff]
  intro x hx
  simp [h x hx]

theorem batchesFor_of_watch_ne (h : ∀ x ∈ l, x.watch ≠ some n) : batchesFor n l = [] := by
  rw [batchesFor, List.map_eq_nil_iff, List.filter_eq_nil_iff]
  intro x hx
  simp [h x hx]

theorem batchesFor_append_of_watch_ne (h : ∀ x ∈ m, x.watch ≠ some n) :
    batchesFor n (l ++ m) = batchesFor n l := by
  rw [batchesFor_append, batchesFor_of_watch_ne h, List.append_nil]

/-- Responses for the watch `n` that all carry events. -/
theorem batchesFor_map_some {rs : List WatchResponse} (h : ∀ r ∈ rs, r.events ≠ []) :
    batchesFor n (rs.map fun r => ⟨some n, r⟩) = rs := by
  rw [batchesFor, List.filter_eq_self.mpr, List.map_map]
  · exact List.map_id rs
  · intro x hx
    obtain ⟨r, hr, rfl⟩ := List.mem_map.mp hx
    simpa using h r hr

theorem batchesFor_replay (h : WatchHandle) (history : List (ℤ × List StoredEvent)) :
    batchesFor n (replay h n history) = history.filterMap fun e => h.response e.1 e.2 := by
  have hmap : replay h n history =
      (history.filterMap fun e => h.response e.1 e.2).map fun r => ⟨some n, r⟩ := by
    rw [replay, List.map_filterMap]
  rw [hmap]
  refine batchesFor_map_some fun r hr => ?_
  obtain ⟨e, -, he⟩ := List.mem_filterMap.mp hr
  exact (WatchHandle.response_eq_some he).1

theorem replay_watch {h : WatchHandle} {history : List (ℤ × List StoredEvent)} {x : Sent}
    (hx : x ∈ replay h n history) : x.watch = some n := by
  obtain ⟨e, -, he⟩ := List.mem_filterMap.mp hx
  obtain ⟨r, -, rfl⟩ := Option.map_eq_some_iff.mp he
  rfl

/-- The responses to a batch. -/
def offers (b : BroadcastBatch) (ws : List Watch) : List Sent :=
  ws.filterMap fun w => (w.handle.offer b).2.map fun r => ⟨some w.serial, r⟩

theorem mem_offers {b : BroadcastBatch} {ws : List Watch} {x : Sent} (hx : x ∈ offers b ws) :
    ∃ w ∈ ws, x.watch = some w.serial := by
  obtain ⟨w, hw, he⟩ := List.mem_filterMap.mp hx
  obtain ⟨r, -, rfl⟩ := Option.map_eq_some_iff.mp he
  exact ⟨w, hw, rfl⟩

theorem batchesFor_offers_of_ne {b : BroadcastBatch} {ws : List Watch}
    (h : ∀ w ∈ ws, w.serial ≠ n) : batchesFor n (offers b ws) = [] := by
  refine batchesFor_of_watch_ne fun x hx hn => ?_
  obtain ⟨w, hw, hxw⟩ := mem_offers hx
  exact h w hw (Option.some.inj (hxw.symm.trans hn))

theorem offer_events {h : WatchHandle} {b : BroadcastBatch} {r : WatchResponse}
    (hr : (h.offer b).2 = some r) : r.events ≠ [] := by
  by_cases hb : b.revision ≤ h.deliveredThrough
  · rw [WatchHandle.offer_of_le hb] at hr
    cases hr
  · rw [WatchHandle.offer_of_lt (not_le.mp hb)] at hr
    exact (WatchHandle.response_eq_some hr).1

/-- With distinct serials, a watch is sent just its own response to a batch. -/
theorem batchesFor_offers {b : BroadcastBatch} {ws : List Watch} {w : Watch}
    (hd : ws.Pairwise fun w w' => w.serial ≠ w'.serial) (hw : w ∈ ws) :
    batchesFor w.serial (offers b ws) = (w.handle.offer b).2.toList := by
  induction ws with
  | nil => cases hw
  | cons w₀ ws ih =>
    obtain ⟨hne, hd⟩ := List.pairwise_cons.mp hd
    have hcons : offers b (w₀ :: ws) =
        ((w₀.handle.offer b).2.toList.map fun r => ⟨some w₀.serial, r⟩) ++ offers b ws := by
      rw [offers, List.filterMap_cons]
      cases (w₀.handle.offer b).2 <;> rfl
    rw [hcons, batchesFor_append]
    rcases List.mem_cons.mp hw with rfl | hw
    · rw [batchesFor_offers_of_ne fun w' hw' => (hne w' hw').symm, List.append_nil]
      exact batchesFor_map_some fun r hr => offer_events (Option.mem_toList.mp hr)
    · rw [ih hd hw, batchesFor_of_watch_ne, List.nil_append]
      intro x hx heq
      obtain ⟨r, -, rfl⟩ := List.mem_map.mp hx
      exact hne w hw (Option.some.inj heq)

end Batches

/-! ## The invariant -/

/-- The first revision of the window that the watch is sent: the one it asks for,
    but none before which the live batches begin. -/
def Watch.first (w : Watch) : ℤ := min w.firstRevision (w.curRev + 1)

/-- What holds of a live watch. -/
structure WatchOk (σ : State) (w : Watch) : Prop where
  serial_lt : w.serial < σ.created
  caughtUp : 1 + (σ.bcast : ℤ) ≤ w.handle.deliveredThrough
  delivered_le : w.handle.deliveredThrough ≤ σ.store.revision
  curRev_le : w.curRev ≤ w.handle.deliveredThrough
  compactRev_nonneg : 0 ≤ w.compactRev
  sent : batchesFor w.serial σ.out =
    (window BroadcastBatch.revision w.first w.handle.deliveredThrough σ.store.tx).filterMap
      w.handle.deliver

/-- What holds of the snapshot between the two halves of an iteration. Unless the
    start revision has been compacted, the history is the window that the new
    watch is to be sent. -/
def PhaseOk (σ : State) : Phase → Prop
  | .creating cr wid history curRev compactRev =>
    1 + (σ.bcast : ℤ) ≤ curRev ∧ curRev ≤ σ.store.revision ∧ 0 ≤ compactRev ∧
      (cr.startRevision > 0 ∧ cr.startRevision ≤ compactRev ∨
        history = (window BroadcastBatch.revision
          (Watch.first ⟨newHandle cr wid curRev, σ.created, cr.startRevision, curRev, compactRev⟩)
          curRev σ.store.tx).map BroadcastBatch.entry)
  | _ => True

structure Inv (σ : State) : Prop where
  reachable : σ.store.Reachable
  bcast_le : σ.bcast ≤ σ.store.tx.length
  out_lt : ∀ x ∈ σ.out, ∀ n, x.watch = some n → n < σ.created
  distinct : σ.watches.Pairwise fun w w' => w.serial ≠ w'.serial
  watch : ∀ w ∈ σ.watches, WatchOk σ w
  phase : PhaseOk σ σ.phase

theorem inv_subscribe {s : Store} (hs : s.Reachable) : Inv (subscribe s) where
  reachable := hs
  bcast_le := le_rfl
  out_lt := by simp [subscribe]
  distinct := List.Pairwise.nil
  watch := by simp [subscribe]
  phase := trivial

theorem Watch.first_le (w : Watch) : w.first ≤ w.curRev + 1 := min_le_right _ _

/-! ## Other requests -/

/-- A window up to a revision that the store has reached does not change. -/
theorem window_after {s s' : Store} {bs : List BroadcastBatch} (h : Advances s s' bs) {lo hi : ℤ}
    (hhi : hi ≤ s.revision) :
    window BroadcastBatch.revision lo hi s'.tx = window BroadcastBatch.revision lo hi s.tx := by
  rw [h.tx]
  refine window_append_of_gt fun b hb => ?_
  have := (h.batch_bounds hb).1
  omega

theorem inv_serve {σ : State} (hσ : Inv σ) (q : Request) :
    Inv { σ with store := σ.store.after q } := by
  obtain ⟨bs, hbs⟩ := Store.after_advances σ.store q
  have hrev := hbs.revision_le
  refine ⟨hσ.reachable.after q, ?_, hσ.out_lt, hσ.distinct, fun w hw => ?_, ?_⟩
  · show σ.bcast ≤ (σ.store.after q).tx.length
    have := hσ.bcast_le
    rw [hbs.tx, List.length_append]
    omega
  · have hw := hσ.watch w hw
    refine ⟨hw.serial_lt, hw.caughtUp, hw.delivered_le.trans hrev, hw.curRev_le,
      hw.compactRev_nonneg, ?_⟩
    show _ = (window _ w.first _ (σ.store.after q).tx).filterMap _
    rw [window_after hbs hw.delivered_le]
    exact hw.sent
  · have hphase := hσ.phase
    show PhaseOk _ σ.phase
    cases hp : σ.phase with
    | creating cr wid history curRev compactRev =>
      rw [hp] at hphase
      obtain ⟨h1, h2, h3, h4⟩ := hphase
      refine ⟨h1, h2.trans hrev, h3, ?_⟩
      simp only [window_after hbs h2]
      exact h4
    | idle => trivial
    | progress rev => trivial
    | closed => trivial

/-! ## Creating a watch -/

theorem compactRevision_nonneg {s : Store} (h : s.Reachable) : 0 ≤ s.compactRevision := by
  refine h.invariant (P := fun s => 0 ≤ s.compactRevision) le_rfl fun s q hs => ?_
  by_cases hq : ∀ rev, q ≠ .compact rev
  · obtain ⟨bs, hbs⟩ := Store.after_logs s q hq
    rwa [hbs.compactRevision]
  · push Not at hq
    obtain ⟨rev, rfl⟩ := hq
    rw [Store.after_compact, Store.compact]
    split_ifs with h
    · exact (hs.trans_lt h).le
    · exact hs

/-- The log from a revision that has not been compacted is the window of the
    history up to now. -/
theorem eventsSince_eq_window {s : Store} (hs : s.Reachable) {start : ℤ}
    (hc : s.compactRevision < start) :
    s.eventsSince (start - 1) =
      (window BroadcastBatch.revision start s.revision s.tx).map BroadcastBatch.entry := by
  rw [Store.eventsSince, hs.logOk (start - 1) (by omega), window, List.filter_map]
  congr 1
  refine List.filter_congr fun b hb => ?_
  have := hs.tx_le hb
  rw [Function.comp_apply, BroadcastBatch.entry, Bool.eq_iff_iff, decide_eq_true_eq,
    decide_eq_true_eq]
  omega

/-- A step that adds no batch for the watch. -/
theorem watchOk_of_batches {σ σ' : State} {w : Watch} (hw : WatchOk σ w)
    (hstore : σ'.store = σ.store) (hbcast : σ'.bcast = σ.bcast) (hcreated : σ.created ≤ σ'.created)
    (hout : batchesFor w.serial σ'.out = batchesFor w.serial σ.out) : WatchOk σ' w where
  serial_lt := hw.serial_lt.trans_le hcreated
  caughtUp := by
    rw [hbcast]
    exact hw.caughtUp
  delivered_le := by
    rw [hstore]
    exact hw.delivered_le
  curRev_le := hw.curRev_le
  compactRev_nonneg := hw.compactRev_nonneg
  sent := by
    rw [hout, hstore]
    exact hw.sent

theorem inv_beginCreate {σ : State} (hσ : Inv σ) (cr : WatchCreateRequest) :
    Inv (beginCreate σ cr) := by
  have hrev := hσ.reachable.revision_eq
  have hbcast := hσ.bcast_le
  refine ⟨hσ.reachable, hσ.bcast_le, hσ.out_lt, hσ.distinct, fun w hw => ?_, ?_⟩
  · exact watchOk_of_batches (hσ.watch w hw) rfl rfl le_rfl rfl
  · refine ⟨?_, le_rfl, compactRevision_nonneg hσ.reachable, ?_⟩
    · show 1 + (σ.bcast : ℤ) ≤ σ.store.revision
      omega
    · by_cases hstart : cr.startRevision > 0
      · by_cases hc : cr.startRevision ≤ σ.store.compactRevision
        · exact Or.inl ⟨hstart, hc⟩
        · right
          rw [if_pos hstart, eventsSince_eq_window hσ.reachable (not_le.mp hc)]
          simp only [Watch.first, Watch.firstRevision, if_pos hstart, window_min]
          rfl
      · right
        have hfirst : σ.store.revision <
            Watch.first ⟨newHandle cr (if cr.watchId ≠ 0 then cr.watchId else σ.nextWatchId)
              σ.store.revision, σ.created, cr.startRevision, σ.store.revision,
              σ.store.compactRevision⟩ := by
          simp only [Watch.first, Watch.firstRevision, if_neg hstart]
          omega
        rw [if_neg hstart]
        exact (congrArg (List.map BroadcastBatch.entry) (window_eq_nil_of_lt hfirst)).symm

theorem inv_endCreate {σ : State} (hσ : Inv σ) {cr : WatchCreateRequest} {wid : ℤ}
    {history : List (ℤ × List StoredEvent)} {curRev compactRev : ℤ}
    (hp : σ.phase = .creating cr wid history curRev compactRev) :
    Inv (endCreate σ cr wid history curRev compactRev) := by
  have hphase := hσ.phase
  rw [hp] at hphase
  obtain ⟨hcur, hrev, hnonneg, hhist⟩ := hphase
  unfold endCreate
  split_ifs with hc
  · -- refused: one response, for no watch
    refine ⟨hσ.reachable, hσ.bcast_le, ?_, hσ.distinct, fun w hw => ?_, trivial⟩
    · refine List.forall_mem_append.mpr ⟨hσ.out_lt, ?_⟩
      simp
    · exact watchOk_of_batches (hσ.watch w hw) rfl rfl le_rfl
        (batchesFor_append_of_watch_ne (by simp))
  · have hhist : history = _ := hhist.resolve_left hc
    have hnew : ∀ x ∈ σ.out, x.watch ≠ some σ.created := fun x hx heq =>
      lt_irrefl _ (hσ.out_lt x hx _ heq)
    refine ⟨hσ.reachable, hσ.bcast_le, ?_, ?_, ?_, trivial⟩
    · refine List.forall_mem_append.mpr ⟨fun x hx n hn => ?_, ?_⟩
      · exact Nat.lt_succ_of_lt (hσ.out_lt x hx n hn)
      · refine List.forall_mem_cons.mpr ⟨fun n hn => ?_, fun x hx n hn => ?_⟩
        · rw [← Option.some.inj hn]
          exact Nat.lt_succ_self _
        · rw [replay_watch hx] at hn
          rw [← Option.some.inj hn]
          exact Nat.lt_succ_self _
    · refine List.pairwise_append.mpr ⟨hσ.distinct, List.pairwise_singleton _ _, ?_⟩
      intro w hw w' hw'
      rw [List.mem_singleton.mp hw']
      exact Nat.ne_of_lt (hσ.watch w hw).serial_lt
    · refine List.forall_mem_append.mpr ⟨fun w hw => ?_, ?_⟩
      · refine watchOk_of_batches (hσ.watch w hw) rfl rfl (Nat.le_succ _)
          (batchesFor_append_of_watch_ne ?_)
        have hne := Nat.ne_of_gt (hσ.watch w hw).serial_lt
        refine List.forall_mem_cons.mpr ⟨?_, fun x hx => ?_⟩
        · simpa using hne
        · rw [replay_watch hx]
          simpa using hne
      · -- the new watch has been sent the replay of the history
        refine List.forall_mem_singleton.mpr
          ⟨Nat.lt_succ_self _, hcur, hrev, le_rfl, hnonneg, ?_⟩
        have hack : ∀ r : WatchResponse, r.events = [] → ∀ l,
            batchesFor σ.created (⟨some σ.created, r⟩ :: l) = batchesFor σ.created l := by
          intro r hr l
          rw [← List.singleton_append, batchesFor_append, batchesFor_of_events_nil (by simpa using hr),
            List.nil_append]
        simp only [batchesFor_append]
        rw [batchesFor_of_watch_ne hnew, List.nil_append, hack _ rfl, batchesFor_replay]
        conv_lhs => rw [hhist]
        rw [List.filterMap_map]
        rfl

/-! ## Cancelling, receiving, lagging -/

theorem inv_cancel {σ : State} (hσ : Inv σ) (watchId : ℤ) : Inv (cancel σ watchId) where
  reachable := hσ.reachable
  bcast_le := hσ.bcast_le
  out_lt := List.forall_mem_append.mpr ⟨hσ.out_lt, by simp⟩
  distinct := hσ.distinct.filter _
  watch := fun w hw => watchOk_of_batches (hσ.watch w (List.mem_filter.mp hw).1) rfl rfl le_rfl
    (batchesFor_append_of_watch_ne (by simp))
  phase := by
    have hphase := hσ.phase
    cases hp : σ.phase <;> simp only [cancel, hp] at hphase ⊢ <;> exact hphase

/-- One batch: a handle that is behind it moves on by exactly this batch. -/
theorem watchOk_offer {σ : State} (hσ : Inv σ) {b : BroadcastBatch}
    (hb : σ.store.tx[σ.bcast]? = some b) {w : Watch} (hw : w ∈ σ.watches) :
    WatchOk (fanOut σ b) { w with handle := (w.handle.offer b).1 } := by
  have hok := hσ.watch w hw
  have hmem : b ∈ σ.store.tx := List.mem_of_getElem? hb
  have hnum : b.revision = 2 + σ.bcast := hσ.reachable.tx_numbered.num_getElem? hb
  have hle := hσ.reachable.tx_le hmem
  have hfirst := w.first_le
  have hcaught := hok.caughtUp
  have hcur := hok.curRev_le
  have hout : batchesFor w.serial (fanOut σ b).out =
      batchesFor w.serial σ.out ++ (w.handle.offer b).2.toList := by
    rw [← batchesFor_offers hσ.distinct hw]
    exact batchesFor_append
  by_cases hbd : b.revision ≤ w.handle.deliveredThrough
  · -- the replay of the history already covered the batch
    rw [WatchHandle.offer_of_le hbd] at hout ⊢
    refine ⟨hok.serial_lt, ?_, hok.delivered_le, hok.curRev_le, hok.compactRev_nonneg, ?_⟩
    · show 1 + ((σ.bcast + 1 : ℕ) : ℤ) ≤ w.handle.deliveredThrough
      push_cast
      omega
    · rw [hout, Option.toList_none, List.append_nil]
      exact hok.sent
  · have hnext : b.revision = w.handle.deliveredThrough + 1 := by omega
    rw [WatchHandle.offer_of_lt (not_le.mp hbd)] at hout ⊢
    refine ⟨hok.serial_lt, ?_, hle, ?_, hok.compactRev_nonneg, ?_⟩
    · show 1 + ((σ.bcast + 1 : ℕ) : ℤ) ≤ b.revision
      push_cast
      omega
    · show w.curRev ≤ b.revision
      omega
    · have hwindow : window BroadcastBatch.revision w.first (w.handle.deliveredThrough + 1)
          σ.store.tx =
            window BroadcastBatch.revision w.first w.handle.deliveredThrough σ.store.tx ++ [b] :=
        window_succ hσ.reachable.tx_numbered hmem (by omega) hnext
      have hsame : Watch.first { w with
          handle := { w.handle with deliveredThrough := b.revision } } = w.first := rfl
      rw [hout, hok.sent, hsame]
      simp only [fanOut, hnext, hwindow, List.filterMap_append]
      congr 1

theorem inv_fanOut {σ : State} (hσ : Inv σ) {b : BroadcastBatch}
    (hb : σ.store.tx[σ.bcast]? = some b) (hp : σ.phase = .idle) : Inv (fanOut σ b) where
  reachable := hσ.reachable
  bcast_le := (List.getElem?_eq_some_iff.mp hb).1
  out_lt := by
    refine List.forall_mem_append.mpr ⟨hσ.out_lt, fun x hx n hn => ?_⟩
    obtain ⟨w, hw, hxw⟩ := mem_offers hx
    rw [← Option.some.inj (hxw.symm.trans hn)]
    exact (hσ.watch w hw).serial_lt
  distinct := List.pairwise_map.mpr hσ.distinct
  watch := by
    intro w' hw'
    obtain ⟨w, hw, rfl⟩ := List.mem_map.mp hw'
    exact watchOk_offer hσ hb hw
  phase := by simp only [fanOut, hp, PhaseOk]

theorem inv_lag {σ : State} (hσ : Inv σ) {n : ℕ} (hn : σ.bcast + n ≤ σ.store.tx.length)
    (hp : σ.phase = .idle) : Inv (lag σ n) where
  reachable := hσ.reachable
  bcast_le := hn
  out_lt := by
    refine List.forall_mem_append.mpr ⟨hσ.out_lt, fun x hx m hm => ?_⟩
    obtain ⟨w, hw, rfl⟩ := List.mem_map.mp hx
    rw [← Option.some.inj hm]
    exact (hσ.watch w hw).serial_lt
  distinct := List.Pairwise.nil
  watch := by simp [lag]
  phase := by simp only [lag, hp, PhaseOk]

/-! ## Every step -/

/-- The steps of the system, case by case. -/
inductive Step (σ : State) : Act → State → Prop where
  | serve (q : Request) : Step σ (.serve q) { σ with store := σ.store.after q }
  | create (cr : WatchCreateRequest) (hp : σ.phase = .idle) :
      Step σ (.message (.createRequest cr)) (beginCreate σ cr)
  | cancel (watchId : ℤ) (hp : σ.phase = .idle) :
      Step σ (.message (.cancelRequest watchId)) (cancel σ watchId)
  | progress (hp : σ.phase = .idle) :
      Step σ (.message .progressRequest) { σ with phase := .progress σ.store.revision }
  | unset (hp : σ.phase = .idle) : Step σ (.message .unset) σ
  | created {cr : WatchCreateRequest} {wid : ℤ} {history : List (ℤ × List StoredEvent)}
      {curRev compactRev : ℤ} (hp : σ.phase = .creating cr wid history curRev compactRev) :
      Step σ .finish (endCreate σ cr wid history curRev compactRev)
  | answered {rev : ℤ} (hp : σ.phase = .progress rev) :
      Step σ .finish { σ with phase := .idle, out := σ.out ++ [⟨none, progressResponse rev⟩] }
  | recv {b : BroadcastBatch} (hp : σ.phase = .idle) (hb : σ.store.tx[σ.bcast]? = some b) :
      Step σ .recv (fanOut σ b)
  | lagged {n : ℕ} (hp : σ.phase = .idle) (hn : σ.bcast + n ≤ σ.store.tx.length) :
      Step σ (.lagged n) (lag σ n)
  | disconnect (hp : σ.phase = .idle) : Step σ .disconnect { σ with phase := .closed }

theorem Step.of_step {σ σ' : State} {a : Act} (h : step σ a = some σ') : Step σ a σ' := by
  cases a with
  | serve q =>
    obtain rfl := Option.some.inj h
    exact .serve q
  | message m =>
    simp only [step] at h
    split_ifs at h with hp
    cases m with
    | createRequest cr =>
      obtain rfl := Option.some.inj h
      exact .create cr hp
    | cancelRequest watchId =>
      obtain rfl := Option.some.inj h
      exact .cancel watchId hp
    | progressRequest =>
      obtain rfl := Option.some.inj h
      exact .progress hp
    | unset =>
      obtain rfl := Option.some.inj h
      exact .unset hp
  | finish =>
    rw [step] at h
    split at h
    · rename_i hp
      obtain rfl := Option.some.inj h
      exact .created hp
    · rename_i hp
      obtain rfl := Option.some.inj h
      exact .answered hp
    · cases h
  | recv =>
    rw [step] at h
    split_ifs at h with hp
    obtain ⟨b, hb, rfl⟩ := Option.map_eq_some_iff.mp h
    exact .recv hp hb
  | lagged n =>
    rw [step] at h
    split_ifs at h with hc
    obtain rfl := Option.some.inj h
    exact .lagged hc.1 hc.2.2
  | disconnect =>
    rw [step] at h
    split_ifs at h with hp
    obtain rfl := Option.some.inj h
    exact .disconnect hp

/-- A step that changes only the phase, and adds responses for no watch. -/
theorem inv_of_phase {σ : State} (hσ : Inv σ) {p : Phase} (hp : PhaseOk σ p) {l : List Sent}
    (hl : ∀ x ∈ l, x.watch = none) : Inv { σ with phase := p, out := σ.out ++ l } where
  reachable := hσ.reachable
  bcast_le := hσ.bcast_le
  out_lt := List.forall_mem_append.mpr ⟨hσ.out_lt, fun x hx n hn => by simp [hl x hx] at hn⟩
  distinct := hσ.distinct
  watch := fun w hw => watchOk_of_batches (hσ.watch w hw) rfl rfl le_rfl
    (batchesFor_append_of_watch_ne fun x hx => by simp [hl x hx])
  phase := by cases p <;> exact hp

theorem inv_step {σ σ' : State} {a : Act} (h : step σ a = some σ') (hσ : Inv σ) : Inv σ' := by
  cases Step.of_step h with
  | serve q => exact inv_serve hσ q
  | create cr hp => exact inv_beginCreate hσ cr
  | cancel watchId hp => exact inv_cancel hσ watchId
  | progress hp => simpa using inv_of_phase hσ (p := .progress σ.store.revision) trivial (l := [])
  | unset hp => exact hσ
  | created hp => exact inv_endCreate hσ hp
  | answered hp => exact inv_of_phase hσ (p := .idle) trivial (by simp)
  | recv hp hb => exact inv_fanOut hσ hb hp
  | lagged hp hn => exact inv_lag hσ hn hp
  | disconnect hp => simpa using inv_of_phase hσ (p := .closed) trivial (l := [])

theorem inv_exec {s : Store} (hs : s.Reachable) {as : List Act} {σ : State}
    (h : exec step (subscribe s) as = some σ) : Inv σ :=
  exec_invariant (fun _ _ _ => inv_step) h (inv_subscribe hs)

/-! ## Watches that are gone -/

/-- The watch `n` is gone, and `sent` is all that was sent for it. -/
structure Gone (n : ℕ) (sent : List WatchResponse) (σ : State) : Prop where
  lt : n < σ.created
  not_live : ∀ w ∈ σ.watches, w.serial ≠ n
  sent_eq : batchesFor n σ.out = sent

/-- Nothing more is sent for a watch that is gone. -/
theorem gone_step {n : ℕ} {sent : List WatchResponse} {σ σ' : State} {a : Act}
    (h : step σ a = some σ') (hσ : Gone n sent σ) : Gone n sent σ' := by
  have hsent := hσ.sent_eq
  have hne : ∀ x : Sent, x.watch = some σ.created → x.watch ≠ some n := by
    intro x hx hn
    have := hσ.lt
    rw [hx, Option.some.injEq] at hn
    omega
  cases Step.of_step h with
  | serve q => exact ⟨hσ.lt, hσ.not_live, hsent⟩
  | create cr hp => exact ⟨hσ.lt, hσ.not_live, hsent⟩
  | cancel watchId hp =>
    refine ⟨hσ.lt, fun w hw => hσ.not_live w (List.mem_filter.mp hw).1, ?_⟩
    rw [← hsent]
    exact batchesFor_append_of_watch_ne (by simp)
  | progress hp => exact ⟨hσ.lt, hσ.not_live, hsent⟩
  | unset hp => exact hσ
  | created hp =>
    unfold endCreate
    split_ifs
    · refine ⟨hσ.lt, hσ.not_live, ?_⟩
      rw [← hsent]
      exact batchesFor_append_of_watch_ne (by simp)
    · refine ⟨Nat.lt_succ_of_lt hσ.lt, ?_, ?_⟩
      · refine List.forall_mem_append.mpr ⟨hσ.not_live, List.forall_mem_singleton.mpr ?_⟩
        exact Nat.ne_of_gt hσ.lt
      · rw [← hsent]
        refine batchesFor_append_of_watch_ne (List.forall_mem_cons.mpr ⟨hne _ rfl, ?_⟩)
        exact fun x hx => hne x (replay_watch hx)
  | answered hp =>
    refine ⟨hσ.lt, hσ.not_live, ?_⟩
    rw [← hsent]
    exact batchesFor_append_of_watch_ne (by simp)
  | recv hp hb =>
    refine ⟨hσ.lt, fun w' hw' => ?_, ?_⟩
    · obtain ⟨w, hw, rfl⟩ := List.mem_map.mp hw'
      exact hσ.not_live w hw
    · rw [← hsent]
      refine batchesFor_append_of_watch_ne fun x hx hn => ?_
      obtain ⟨w, hw, hxw⟩ := mem_offers hx
      exact hσ.not_live w hw (Option.some.inj (hxw.symm.trans hn))
  | lagged hp hn =>
    refine ⟨hσ.lt, by simp [lag], ?_⟩
    rw [← hsent]
    refine batchesFor_append_of_watch_ne fun x hx heq => ?_
    obtain ⟨w, hw, rfl⟩ := List.mem_map.mp hx
    exact hσ.not_live w hw (Option.some.inj heq)
  | disconnect hp => exact ⟨hσ.lt, hσ.not_live, hsent⟩

theorem gone_exec {n : ℕ} {sent : List WatchResponse} {as : List Act} {σ σ' : State}
    (h : exec step σ as = some σ') (hσ : Gone n sent σ) : Gone n sent σ' :=
  exec_invariant (fun _ _ _ => gone_step) h hσ

/-! ## Delivery -/

/-- The responses for a window of the history have increasing revisions. -/
theorem deliver_pairwise {s : Store} (hs : s.Reachable) (h : WatchHandle) (lo hi : ℤ) :
    ((window BroadcastBatch.revision lo hi s.tx).filterMap h.deliver).Pairwise
      fun r r' => r.revision < r'.revision := by
  rw [List.pairwise_filterMap]
  refine (hs.tx_numbered.pairwise_lt.filter _).imp ?_
  intro b b' hlt r hr r' hr'
  rw [(WatchHandle.response_eq_some hr).2, (WatchHandle.response_eq_some hr').2]
  exact hlt

/-- Cancelled by a lag, the watch is gone with what it had been sent. -/
theorem gone_lag {σ : State} (hσ : Inv σ) (n : ℕ) {w : Watch} (hw : w ∈ σ.watches) :
    Gone w.serial (batchesFor w.serial σ.out) (lag σ n) where
  lt := (hσ.watch w hw).serial_lt
  not_live := by simp [lag]
  sent_eq := by
    refine batchesFor_append.trans ?_
    refine (congrArg _ (batchesFor_of_events_nil fun x hx => ?_)).trans (List.append_nil _)
    obtain ⟨w', -, rfl⟩ := List.mem_map.mp hx
    rfl

/-- In every interleaving of a stream with the requests of all clients: a live
    watch with a valid start revision has been sent exactly the batches of the
    history from that revision (from its creation if it is 0) to its
    `delivered_through`, each once and in increasing order, where
    `delivered_through` is not behind the receiver; and if the receiver lags, each
    watch is sent its cancellation and no batch ever after. -/
theorem delivery {s : Store} (hs : s.Reachable) (as : List Act) (σ : State)
    (hexec : exec step (subscribe s) as = some σ) :
    (∀ w ∈ σ.watches,
      (w.startRevision = 0 ∨ w.compactRev < w.startRevision ∧ w.startRevision ≤ w.curRev + 1) →
      batchesFor w.serial σ.out =
        (window BroadcastBatch.revision
          (if w.startRevision = 0 then w.curRev + 1 else w.startRevision)
          w.handle.deliveredThrough σ.store.tx).filterMap w.handle.deliver ∧
      ((batchesFor w.serial σ.out).Pairwise fun r r' => r.revision < r'.revision) ∧
      1 + (σ.bcast : ℤ) ≤ w.handle.deliveredThrough ∧
      w.handle.deliveredThrough ≤ σ.store.revision) ∧
    ∀ n σ', step σ (.lagged n) = some σ' → ∀ w ∈ σ.watches,
      ⟨some w.serial, { watchId := w.handle.id, canceled := true,
                        cancelReason := "broadcast lag — reconnect" }⟩ ∈ σ'.out ∧
      ∀ bs τ, exec step σ' bs = some τ → batchesFor w.serial τ.out = batchesFor w.serial σ.out := by
  have hσ := inv_exec hs hexec
  refine ⟨fun w hw hstart => ?_, fun n σ' hstep w hw => ?_⟩
  · have hok := hσ.watch w hw
    have hfirst : w.first = if w.startRevision = 0 then w.curRev + 1 else w.startRevision := by
      have := hok.compactRev_nonneg
      unfold Watch.first Watch.firstRevision
      split_ifs <;> omega
    refine ⟨?_, ?_, hok.caughtUp, hok.delivered_le⟩
    · rw [hok.sent, hfirst]
    · rw [hok.sent]
      exact deliver_pairwise hσ.reachable w.handle _ _
  · cases Step.of_step hstep with
    | lagged hp hn =>
      refine ⟨List.mem_append_right _ (List.mem_map.mpr ⟨w, hw, rfl⟩), fun bs τ hbs => ?_⟩
      exact (gone_exec hbs (gone_lag hσ n hw)).sent_eq

/-- A watch from revision 2 on a store with one put, created while the receiver
    still queues a second put, and a third put afterwards. -/
theorem delivery_across_replay :
    let s := Store.new.run [.put { key := [97] }]
    let as : List Act := [.serve (.put { key := [97] }),
      .message (.createRequest { key := [97], startRevision := 2 }), .finish,
      .serve (.put { key := [97] }), .recv, .recv]
    ∃ σ, exec step (subscribe s) as = some σ ∧
      (batchesFor 0 σ.out).map WatchResponse.revision = [2, 3, 4] ∧
      ∀ w ∈ σ.watches, (w.startRevision = 0 ∨
          w.compactRev < w.startRevision ∧ w.startRevision ≤ w.curRev + 1) →
        batchesFor w.serial σ.out =
          (window BroadcastBatch.revision
            (if w.startRevision = 0 then w.curRev + 1 else w.startRevision)
            w.handle.deliveredThrough σ.store.tx).filterMap w.handle.deliver := by
  intro s as
  refine ⟨_, rfl, by decide, fun w hw hstart => ?_⟩
  exact ((delivery (s := s) ⟨_, rfl⟩ as _ rfl).1 w hw hstart).1

/-! ## Progress -/

/-- Every watch of the stream has been sent every response that the batches up to
    `rev` call for. -/
def Truthful (σ : State) (rev : ℤ) : Prop :=
  ∀ w ∈ σ.watches, ∀ b ∈ σ.store.tx, w.firstRevision ≤ b.revision → b.revision ≤ rev →
    ∀ r, w.handle.deliver b = some r → r ∈ batchesFor w.serial σ.out

/-- No batch that is still queued is news to a watch. -/
def QueueIrrelevant (σ : State) (rev : ℤ) : Prop :=
  ∀ w ∈ σ.watches, ∀ b ∈ σ.store.tx.drop σ.bcast, w.firstRevision ≤ b.revision →
    b.revision ≤ rev → w.handle.deliveredThrough < b.revision → w.handle.deliver b = none

instance (σ : State) (rev : ℤ) : Decidable (QueueIrrelevant σ rev) :=
  inferInstanceAs (Decidable (∀ w ∈ σ.watches, ∀ b ∈ σ.store.tx.drop σ.bcast,
    w.firstRevision ≤ b.revision → b.revision ≤ rev → w.handle.deliveredThrough < b.revision →
      w.handle.deliver b = none))

theorem truthful_iff {σ : State} (hσ : Inv σ) (rev : ℤ) :
    Truthful σ rev ↔ QueueIrrelevant σ rev := by
  constructor
  · intro h w hw b hb hfirst hrev hnews
    cases hd : w.handle.deliver b with
    | none => rfl
    | some r =>
      -- what has been sent for the watch ends at `delivered_through`
      have hsent := h w hw b (List.mem_of_mem_drop hb) hfirst hrev r hd
      rw [(hσ.watch w hw).sent] at hsent
      obtain ⟨b', hb', hd'⟩ := List.mem_filterMap.mp hsent
      have hle := (mem_window.mp hb').2.2
      have hr := (WatchHandle.response_eq_some hd).2
      have hr' := (WatchHandle.response_eq_some hd').2
      omega
  · intro h w hw b hb hfirst hrev r hd
    have hok := hσ.watch w hw
    have hdelivered : b.revision ≤ w.handle.deliveredThrough := by
      by_contra hnews
      obtain ⟨i, hi⟩ := List.mem_iff_getElem?.mp hb
      have hnum := hσ.reachable.tx_numbered.num_getElem? hi
      have hcaught := hok.caughtUp
      have hqueued : b ∈ σ.store.tx.drop σ.bcast := by
        refine List.mem_iff_getElem?.mpr ⟨i - σ.bcast, ?_⟩
        rw [List.getElem?_drop, ← hi]
        congr 1
        omega
      have := h w hw b hqueued hfirst hrev (by omega)
      rw [hd] at this
      cases this
    rw [hok.sent]
    refine List.mem_filterMap.mpr ⟨b, mem_window.mpr ⟨hb, ?_, hdelivered⟩, hd⟩
    exact (min_le_left _ _).trans hfirst

/-- In every interleaving, when the stream is about to answer a progress request
    with `rev`: the answer is true of the watches of the stream exactly when no
    batch still in the queue of its receiver, up to `rev` and beyond the
    `delivered_through` of a watch, matches that watch. -/
theorem progress_truthful_iff {s : Store} (hs : s.Reachable) (as : List Act) (σ : State)
    (hexec : exec step (subscribe s) as = some σ) (rev : ℤ) (hp : σ.phase = .progress rev) :
    (∃ σ', step σ .finish = some σ' ∧ σ'.out = σ.out ++ [⟨none, progressResponse rev⟩]) ∧
      (Truthful σ rev ↔ QueueIrrelevant σ rev) :=
  ⟨⟨{ σ with phase := .idle, out := σ.out ++ [⟨none, progressResponse rev⟩] },
    by simp only [step, hp], rfl⟩, truthful_iff (inv_exec hs hexec) rev⟩

/-- A watch of `a`, a put of `b`, and a progress request before the put is
    received. -/
theorem progress_truthful_other_key :
    let as : List Act := [.message (.createRequest { key := [97] }), .finish,
      .serve (.put { key := [98] }), .message .progressRequest]
    ∃ σ, exec step (subscribe Store.new) as = some σ ∧ σ.phase = .progress 2 ∧ Truthful σ 2 := by
  intro as
  refine ⟨_, rfl, rfl, ?_⟩
  exact (progress_truthful_iff (s := Store.new) Store.reachable_new as _ rfl 2 rfl).2.mpr (by decide)

/-- The same with a put of `a`: the stream answers that it is at revision 2, and
    has not sent the watch of `a` anything. -/
theorem progress_before_queued_put :
    let as : List Act := [.message (.createRequest { key := [97] }), .finish,
      .serve (.put { key := [97] }), .message .progressRequest, .finish]
    ∃ σ, exec step (subscribe Store.new) as = some σ ∧
      σ.out.getLast? = some ⟨none, progressResponse 2⟩ ∧ σ.watches.map Watch.serial = [0] ∧
      batchesFor 0 σ.out = [] ∧ ¬ Truthful σ 2 := by
  intro as
  refine ⟨_, rfl, by decide, by decide, by decide, fun h => ?_⟩
  have hexec : exec step (subscribe Store.new) as = some _ := rfl
  exact absurd ((truthful_iff (inv_exec Store.reachable_new hexec) 2).mp h) (by decide)

end WatchSvc

end Kubenyx.EtcdMem
