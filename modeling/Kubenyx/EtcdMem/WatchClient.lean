import Kubenyx.EtcdMem.Compaction
import Kubenyx.EtcdMem.WatchDelivery

/-!
# What the client of a watch stream can rely on

The client tells its watches apart by their ids, takes a watch to exist when it
reads a response with `created` set, and expects no event from before the revision
it asked for. The stream keeps these rules on part of its inputs only.

* `reports_from_start`: a watch whose start revision is not beyond the next
  revision of the store is never sent an event from before it.
* `ids_unambiguous`: as long as every watch gets an id that no live watch has, ids
  are distinct, and a watch that gets another's id ends that.
* `announced_iff`: a watch is announced, once and first, unless its start revision
  has been compacted.
-/

namespace Kubenyx.EtcdMem

open Kubenyx.Common

namespace WatchSvc

/-! ## What a step does to the watches and sends -/

theorem offer_id (h : WatchHandle) (b : BroadcastBatch) : (h.offer b).1.id = h.id := by
  unfold WatchHandle.offer
  split_ifs <;> rfl

/-- The watches of a state were there before, up to `delivered_through`, or one was
    just created. -/
theorem watches_step {σ σ' : State} {a : Act} (h : step σ a = some σ') {w' : Watch}
    (hw' : w' ∈ σ'.watches) :
    (∃ w ∈ σ.watches, w'.serial = w.serial ∧ w'.first = w.first ∧ w'.handle.id = w.handle.id) ∨
      ∃ cr wid history curRev compactRev, σ.phase = .creating cr wid history curRev compactRev ∧
        ¬ (cr.startRevision > 0 ∧ cr.startRevision ≤ compactRev) ∧
        w' = ⟨newHandle cr wid curRev, σ.created, cr.startRevision, curRev, compactRev⟩ := by
  cases Step.of_step h with
  | cancel watchId hp => exact Or.inl ⟨w', (List.mem_filter.mp hw').1, rfl, rfl, rfl⟩
  | created hp =>
    unfold endCreate at hw'
    split_ifs at hw' with hc
    · exact Or.inl ⟨w', hw', rfl, rfl, rfl⟩
    · rcases List.mem_append.mp hw' with hw' | hw'
      · exact Or.inl ⟨w', hw', rfl, rfl, rfl⟩
      · exact Or.inr ⟨_, _, _, _, _, hp, hc, List.mem_singleton.mp hw'⟩
  | recv hp hb =>
    obtain ⟨w, hw, rfl⟩ := List.mem_map.mp hw'
    exact Or.inl ⟨w, hw, rfl, rfl, offer_id _ _⟩
  | lagged hp hn => cases hw'
  | serve q => exact Or.inl ⟨w', hw', rfl, rfl, rfl⟩
  | create cr hp => exact Or.inl ⟨w', hw', rfl, rfl, rfl⟩
  | progress hp => exact Or.inl ⟨w', hw', rfl, rfl, rfl⟩
  | unset hp => exact Or.inl ⟨w', hw', rfl, rfl, rfl⟩
  | answered hp => exact Or.inl ⟨w', hw', rfl, rfl, rfl⟩
  | disconnect hp => exact Or.inl ⟨w', hw', rfl, rfl, rfl⟩

theorem created_le_step {σ σ' : State} {a : Act} (h : step σ a = some σ') :
    σ.created ≤ σ'.created := by
  cases Step.of_step h with
  | created hp =>
    unfold endCreate
    split_ifs
    · exact le_rfl
    · exact Nat.le_succ _
  | _ => exact le_rfl

/-- A step after which an earlier watch is not live sends it no batch. -/
theorem batches_step {σ σ' : State} {a : Act} (h : step σ a = some σ') {n : ℕ}
    (hn : n < σ.created) :
    (∃ w ∈ σ'.watches, w.serial = n) ∨ batchesFor n σ'.out = batchesFor n σ.out := by
  by_cases hlive : ∃ w ∈ σ.watches, w.serial = n
  · obtain ⟨w, hw, rfl⟩ := hlive
    cases Step.of_step h with
    | cancel watchId hp => exact Or.inr (batchesFor_append_of_watch_ne (by simp))
    | created hp =>
      refine Or.inl ⟨w, ?_, rfl⟩
      unfold endCreate
      split_ifs
      · exact hw
      · exact List.mem_append_left _ hw
    | recv hp hb => exact Or.inl ⟨_, List.mem_map_of_mem hw, rfl⟩
    | lagged hp hn =>
      refine Or.inr (batchesFor_append.trans ?_)
      refine (congrArg _ (batchesFor_of_events_nil fun x hx => ?_)).trans (List.append_nil _)
      obtain ⟨w', -, rfl⟩ := List.mem_map.mp hx
      rfl
    | serve q => exact Or.inl ⟨w, hw, rfl⟩
    | create cr hp => exact Or.inl ⟨w, hw, rfl⟩
    | progress hp => exact Or.inl ⟨w, hw, rfl⟩
    | unset hp => exact Or.inl ⟨w, hw, rfl⟩
    | answered hp => exact Or.inl ⟨w, hw, rfl⟩
    | disconnect hp => exact Or.inl ⟨w, hw, rfl⟩
  · have hgone : Gone n (batchesFor n σ.out) σ :=
      ⟨hn, fun w hw heq => hlive ⟨w, hw, heq⟩, rfl⟩
    exact Or.inr (gone_step h hgone).sent_eq

/-! ## Events from before the start revision -/

/-- The response and all its events are of revision `start` or later. -/
def FromRevision (start : ℤ) (r : WatchResponse) : Prop :=
  start ≤ r.revision ∧ ∀ e ∈ r.events, ∃ kv, e.kv = some kv ∧ start ≤ kv.modRevision

/-- What a handle sends for a batch of the history is of the revision of the
    batch. -/
theorem deliver_fromRevision {s : Store} (hs : s.Reachable) {h : WatchHandle} {b : BroadcastBatch}
    (hb : b ∈ s.tx) {r : WatchResponse} (hr : h.deliver b = some r) :
    FromRevision b.revision r := by
  have hrev := (WatchHandle.response_eq_some hr).2
  have hevents : r.events = h.matched b.events := by
    rw [WatchHandle.deliver, WatchHandle.response] at hr
    split_ifs at hr
    rw [← Option.some.inj hr]
  refine ⟨hrev.ge, fun e he => ?_⟩
  rw [hevents, WatchHandle.matched] at he
  obtain ⟨ev, hev, rfl⟩ := List.mem_map.mp he
  have hmod := hs.advances.modRevision b hb ev (List.mem_filter.mp hev).1
  refine ⟨kvToProto ev.kv false, ?_, hmod.ge⟩
  unfold WatchHandle.event
  split_ifs <;> rfl

/-- The watch `n` is about to be created with the start revision `start`, which is
    not compacted and not beyond the next revision. -/
def Pending (n : ℕ) (start : ℤ) (σ : State) : Prop :=
  σ.created = n ∧ ∃ cr wid history curRev compactRev,
    σ.phase = .creating cr wid history curRev compactRev ∧ cr.startRevision = start ∧
      0 < start ∧ compactRev < start ∧ start ≤ curRev + 1

/-- The watch `n` has been created and is sent nothing from before `start`. -/
structure ReportsFrom (n : ℕ) (start : ℤ) (σ : State) : Prop where
  lt : n < σ.created
  live : ∀ w ∈ σ.watches, w.serial = n → start ≤ w.first
  sent : ∀ r ∈ batchesFor n σ.out, FromRevision start r

/-- For a live watch this follows from what it has been sent so far. -/
theorem WatchOk.fromRevision {σ : State} (hσ : Inv σ) {w : Watch} (hw : w ∈ σ.watches) {start : ℤ}
    (hstart : start ≤ w.first) : ∀ r ∈ batchesFor w.serial σ.out, FromRevision start r := by
  intro r hr
  rw [(hσ.watch w hw).sent] at hr
  obtain ⟨b, hb, hd⟩ := List.mem_filterMap.mp hr
  obtain ⟨hb, hlo, -⟩ := mem_window.mp hb
  obtain ⟨hrev, hevents⟩ := deliver_fromRevision hσ.reachable hb hd
  refine ⟨by omega, fun e he => ?_⟩
  obtain ⟨kv, hkv, hmod⟩ := hevents e he
  exact ⟨kv, hkv, by omega⟩

theorem reportsFrom_step {n : ℕ} {start : ℤ} {σ σ' : State} {a : Act} (hσ : Inv σ)
    (h : step σ a = some σ') (hr : ReportsFrom n start σ) : ReportsFrom n start σ' := by
  have hlive : ∀ w ∈ σ'.watches, w.serial = n → start ≤ w.first := by
    intro w' hw' hn
    rcases watches_step h hw' with ⟨w, hw, hserial, hfirst, -⟩ | ⟨_, _, _, _, _, -, -, rfl⟩
    · rw [hfirst]
      exact hr.live w hw (by rw [← hserial, hn])
    · exact absurd hn (Nat.ne_of_gt hr.lt)
  refine ⟨hr.lt.trans_le (created_le_step h), hlive, ?_⟩
  rcases batches_step h hr.lt with ⟨w, hw, rfl⟩ | heq
  · exact WatchOk.fromRevision (inv_step h hσ) hw (hlive w hw rfl)
  · rw [heq]
    exact hr.sent

theorem pending_step {n : ℕ} {start : ℤ} {σ σ' : State} {a : Act} (hσ : Inv σ)
    (h : step σ a = some σ') (hp : Pending n start σ) :
    Pending n start σ' ∨ ReportsFrom n start σ' := by
  obtain ⟨rfl, cr, wid, history, curRev, compactRev, hphase, hcr, hpos, hc, hle⟩ := hp
  have hbusy : σ.phase ≠ .idle := by rw [hphase]; exact nofun
  have hinv := inv_step h hσ
  cases Step.of_step h with
  | serve q => exact Or.inl ⟨rfl, cr, wid, history, curRev, compactRev, hphase, hcr, hpos, hc, hle⟩
  | created hp =>
    rw [hphase] at hp
    obtain ⟨rfl, rfl, rfl, rfl, rfl⟩ := Phase.creating.inj hp
    subst hcr
    have hfresh : ¬ (cr.startRevision > 0 ∧ cr.startRevision ≤ compactRev) := by omega
    -- the new watch is the only one with its serial
    have hlive : ∀ w ∈ (endCreate σ cr wid history curRev compactRev).watches,
        w.serial = σ.created → cr.startRevision ≤ w.first := by
      intro w hw hserial
      rw [endCreate, if_neg hfresh] at hw
      rcases List.mem_append.mp hw with hw | hw
      · exact absurd hserial (Nat.ne_of_lt (hσ.watch w hw).serial_lt)
      · rw [List.mem_singleton.mp hw, Watch.first, Watch.firstRevision, if_pos hpos]
        exact le_min le_rfl hle
    have hmem : ⟨newHandle cr wid curRev, σ.created, cr.startRevision, curRev, compactRev⟩ ∈
        (endCreate σ cr wid history curRev compactRev).watches := by
      rw [endCreate, if_neg hfresh]
      exact List.mem_append_right _ List.mem_cons_self
    refine Or.inr ⟨?_, hlive, WatchOk.fromRevision hinv hmem (hlive _ hmem rfl)⟩
    rw [endCreate, if_neg hfresh]
    exact Nat.lt_succ_self _
  | create cr hp => exact absurd hp hbusy
  | cancel watchId hp => exact absurd hp hbusy
  | progress hp => exact absurd hp hbusy
  | unset hp => exact absurd hp hbusy
  | answered hp =>
    rw [hphase] at hp
    cases hp
  | recv hp hb => exact absurd hp hbusy
  | lagged hp hn => exact absurd hp hbusy
  | disconnect hp => exact absurd hp hbusy

/-- The watch `n` is on its way or has been created, with the start revision
    `start`. -/
def StartOk (n : ℕ) (start : ℤ) (σ : State) : Prop :=
  Inv σ ∧ (Pending n start σ ∨ ReportsFrom n start σ)

theorem startOk_exec {n : ℕ} {start : ℤ} {σ τ : State} {bs : List Act}
    (h : exec step σ bs = some τ) (hσ : StartOk n start σ) : StartOk n start τ := by
  refine exec_invariant (fun σ a σ' hstep hσ => ?_) h hσ
  obtain ⟨hinv, hpend | hreports⟩ := hσ
  · exact ⟨inv_step hstep hinv, pending_step hinv hstep hpend⟩
  · exact ⟨inv_step hstep hinv, Or.inr (reportsFrom_step hinv hstep hreports)⟩

/-- In every interleaving: a watch that is created with a start revision up to the
    next revision of the store is only ever sent batches, and events, of its start
    revision or later. -/
theorem reports_from_start {s : Store} (hs : s.Reachable) (as : List Act) (σ : State)
    (hexec : exec step (subscribe s) as = some σ) (cr : WatchCreateRequest)
    (hpos : 0 < cr.startRevision) (hcreated : σ.store.compactRevision < cr.startRevision)
    (hle : cr.startRevision ≤ σ.store.revision + 1) (bs : List Act) (τ : State)
    (hrest : exec step σ (.message (.createRequest cr) :: bs) = some τ) :
    ∀ r ∈ batchesFor σ.created τ.out, FromRevision cr.startRevision r := by
  have hσ := inv_exec hs hexec
  obtain ⟨σ', hstep, hrest⟩ := exec_cons_iff.mp hrest
  have hpending : Pending σ.created cr.startRevision σ' := by
    cases Step.of_step hstep with
    | create cr hp => exact ⟨rfl, cr, _, _, _, _, rfl, rfl, hpos, hcreated, hle⟩
  obtain ⟨hτ, hpend | hreports⟩ :=
    startOk_exec hrest ⟨inv_step hstep hσ, Or.inl hpending⟩
  · -- not created yet, so nothing has been sent for it
    have hnone : batchesFor σ.created τ.out = [] := by
      refine batchesFor_of_watch_ne fun x hx heq => ?_
      have := hτ.out_lt x hx _ heq
      rw [hpend.1] at this
      omega
    rw [hnone]
    exact nofun
  · exact hreports.sent

/-- A watch from the next revision of a fresh store, and two puts. -/
theorem reports_from_start_next_revision :
    let as : List Act := [.message (.createRequest { key := [97], startRevision := 2 }), .finish,
      .serve (.put { key := [97] }), .recv, .serve (.put { key := [97] }), .recv]
    ∃ τ, exec step (subscribe Store.new) as = some τ ∧
      (batchesFor 0 τ.out).map WatchResponse.revision = [2, 3] ∧
      ∀ r ∈ batchesFor 0 τ.out, FromRevision 2 r := by
  intro as
  refine ⟨_, rfl, by decide, ?_⟩
  have hrest : exec step (subscribe Store.new) as = some _ := rfl
  exact reports_from_start Store.reachable_new [] _ rfl { key := [97], startRevision := 2 }
    (by decide) (by decide) (by decide) as.tail _ hrest

/-- A watch from revision 5 on a fresh store is sent the put of revision 2. -/
theorem future_watch_reports_past :
    let as : List Act := [.message (.createRequest { key := [97], startRevision := 5 }), .finish,
      .serve (.put { key := [97] }), .recv]
    ∃ τ, exec step (subscribe Store.new) as = some τ ∧ τ.watches.map Watch.startRevision = [5] ∧
      (batchesFor 0 τ.out).map WatchResponse.revision = [2] ∧
      ¬ ∀ r ∈ batchesFor 0 τ.out, FromRevision 5 r := by
  intro as
  refine ⟨_, rfl, by decide, by decide, fun h => ?_⟩
  exact absurd (h _ List.mem_cons_self).1 (by decide)

/-! ## Watch ids -/

/-- The id that a create message gets (svc.rs:165-169). -/
def givenId (σ : State) (cr : WatchCreateRequest) : ℤ :=
  if cr.watchId ≠ 0 then cr.watchId else σ.nextWatchId

/-- The start revision of the create message has been compacted
    (svc.rs:186). -/
def compacted (σ : State) (cr : WatchCreateRequest) : Prop :=
  cr.startRevision > 0 ∧ cr.startRevision ≤ σ.store.compactRevision

/-- A create message that is not refused gets an id that no live watch has. -/
def FreshId (σ : State) : Act → Prop
  | .message (.createRequest cr) =>
    compacted σ cr ∨ ∀ w ∈ σ.watches, w.handle.id ≠ givenId σ cr
  | _ => True

/-- The live watches have distinct ids. -/
def DistinctIds (σ : State) : Prop :=
  σ.watches.Pairwise fun w w' => w.handle.id ≠ w'.handle.id

instance (σ : State) : Decidable (DistinctIds σ) :=
  inferInstanceAs (Decidable (σ.watches.Pairwise fun w w' => w.handle.id ≠ w'.handle.id))

/-- Ids are distinct and stay so when the watch under way is created. -/
def IdsOk (σ : State) : Prop :=
  DistinctIds σ ∧ ∀ cr wid history curRev compactRev,
    σ.phase = .creating cr wid history curRev compactRev →
    (cr.startRevision > 0 ∧ cr.startRevision ≤ compactRev) ∨ ∀ w ∈ σ.watches, w.handle.id ≠ wid

theorem idsOk_subscribe (s : Store) : IdsOk (subscribe s) :=
  ⟨List.Pairwise.nil, nofun⟩

theorem idsOk_step {σ σ' : State} {a : Act} (hfresh : FreshId σ a) (h : step σ a = some σ')
    (hσ : IdsOk σ) : IdsOk σ' := by
  obtain ⟨hd, hph⟩ := hσ
  cases Step.of_step h with
  | serve q => exact ⟨hd, hph⟩
  | create cr hp =>
    refine ⟨hd, fun cr' wid history curRev compactRev hphase => ?_⟩
    obtain ⟨rfl, rfl, rfl, rfl, rfl⟩ := Phase.creating.inj hphase
    exact hfresh
  | cancel watchId hp =>
    refine ⟨hd.filter _, fun cr wid history curRev compactRev hphase => ?_⟩
    rw [show (cancel σ watchId).phase = σ.phase from rfl, hp] at hphase
    cases hphase
  | progress hp => exact ⟨hd, nofun⟩
  | unset hp => exact ⟨hd, hph⟩
  | created hp =>
    unfold endCreate
    split_ifs with hc
    · exact ⟨hd, nofun⟩
    · refine ⟨List.pairwise_append.mpr ⟨hd, List.pairwise_singleton _ _, ?_⟩, nofun⟩
      intro w hw w' hw'
      rw [List.mem_singleton.mp hw']
      exact (hph _ _ _ _ _ hp).resolve_left hc w hw
  | answered hp => exact ⟨hd, nofun⟩
  | recv hp hb =>
    refine ⟨List.pairwise_map.mpr (hd.imp fun hne => ?_), ?_⟩
    · rwa [offer_id, offer_id]
    · intro cr wid history curRev compactRev hphase
      rw [show (fanOut σ _).phase = σ.phase from rfl, hp] at hphase
      cases hphase
  | lagged hp hn =>
    refine ⟨List.Pairwise.nil, fun cr wid history curRev compactRev hphase => ?_⟩
    rw [show (lag σ _).phase = σ.phase from rfl, hp] at hphase
    cases hphase
  | disconnect hp => exact ⟨hd, nofun⟩

/-- With distinct ids a cancel message ends at most one watch. -/
theorem cancel_length {σ : State} (hd : DistinctIds σ) (id : ℤ) :
    σ.watches.length ≤ (cancel σ id).watches.length + 1 := by
  show σ.watches.length ≤ (σ.watches.filter fun w => w.handle.id ≠ id).length + 1
  unfold DistinctIds at hd
  generalize σ.watches = watches at hd ⊢
  induction watches with
  | nil => exact Nat.zero_le _
  | cons w ws ih =>
    obtain ⟨hne, hd⟩ := List.pairwise_cons.mp hd
    by_cases hid : w.handle.id = id
    · have hrest : ws.filter (fun w => w.handle.id ≠ id) = ws := by
        refine List.filter_eq_self.mpr fun w' hw' => ?_
        simpa [← hid] using (hne w' hw').symm
      rw [List.filter_cons_of_neg (by simpa using hid), hrest, List.length_cons]
    · rw [List.filter_cons_of_pos (by simpa using hid), List.length_cons, List.length_cons]
      exact Nat.succ_le_succ (ih hd)

/-- The responses that a step sends. -/
def sentBy (σ σ' : State) : List Sent := σ'.out.drop σ.out.length

theorem sentBy_of_append {σ σ' : State} {l : List Sent} (h : σ'.out = σ.out ++ l) :
    sentBy σ σ' = l := by
  rw [sentBy, h, List.drop_left]

theorem mem_replay {h : WatchHandle} {n : ℕ} {history : List (ℤ × List StoredEvent)} {x : Sent}
    (hx : x ∈ replay h n history) :
    x.watch = some n ∧ x.response.watchId = h.id ∧ x.response.created = false := by
  obtain ⟨e, -, he⟩ := List.mem_filterMap.mp hx
  obtain ⟨r, hr, rfl⟩ := Option.map_eq_some_iff.mp he
  rw [WatchHandle.response] at hr
  split_ifs at hr
  obtain rfl := Option.some.inj hr
  exact ⟨rfl, rfl, rfl⟩

theorem mem_offers_response {b : BroadcastBatch} {ws : List Watch} {x : Sent}
    (hx : x ∈ offers b ws) :
    ∃ w ∈ ws, x.watch = some w.serial ∧ x.response.watchId = w.handle.id ∧
      x.response.created = false := by
  obtain ⟨w, hw, he⟩ := List.mem_filterMap.mp hx
  obtain ⟨r, hr, rfl⟩ := Option.map_eq_some_iff.mp he
  refine ⟨w, hw, rfl, ?_⟩
  unfold WatchHandle.offer WatchHandle.response at hr
  split_ifs at hr
  obtain rfl := Option.some.inj hr
  exact ⟨rfl, rfl⟩

/-- A batch of events is sent under the id of a watch that is live after the
    step. -/
theorem batch_of_live {σ σ' : State} {a : Act} (h : step σ a = some σ') {x : Sent}
    (hx : x ∈ sentBy σ σ') (he : x.response.events ≠ []) :
    ∃ w ∈ σ'.watches, x.watch = some w.serial ∧ x.response.watchId = w.handle.id := by
  have hsame : σ'.out = σ.out → sentBy σ σ' = [] := fun heq =>
    sentBy_of_append (by rw [heq, List.append_nil])
  cases Step.of_step h with
  | cancel watchId hp =>
    rw [sentBy_of_append rfl, List.mem_singleton] at hx
    rw [hx] at he
    exact absurd rfl he
  | created hp =>
    unfold endCreate at hx ⊢
    split_ifs at hx ⊢ with hc
    · rw [sentBy_of_append rfl, List.mem_singleton] at hx
      rw [hx] at he
      exact absurd rfl he
    · rw [sentBy_of_append rfl] at hx
      refine ⟨_, List.mem_append_right _ List.mem_cons_self, ?_⟩
      rcases List.mem_cons.mp hx with rfl | hx
      · exact absurd rfl he
      · exact ⟨(mem_replay hx).1, (mem_replay hx).2.1⟩
  | answered hp =>
    rw [sentBy_of_append rfl, List.mem_singleton] at hx
    rw [hx] at he
    exact absurd rfl he
  | recv hp hb =>
    rw [sentBy_of_append rfl] at hx
    obtain ⟨w, hw, hserial, hid, -⟩ := mem_offers_response hx
    exact ⟨_, List.mem_map_of_mem hw, hserial, hid.trans (offer_id ..).symm⟩
  | lagged hp hn =>
    rw [sentBy_of_append rfl] at hx
    obtain ⟨w, -, rfl⟩ := List.mem_map.mp hx
    exact absurd rfl he
  | serve q => simp [hsame rfl] at hx
  | create cr hp => simp [hsame rfl] at hx
  | progress hp => simp [hsame rfl] at hx
  | unset hp => simp [hsame rfl] at hx
  | disconnect hp => simp [hsame rfl] at hx

theorem eq_of_distinctIds {σ : State} (hd : DistinctIds σ) {w w' : Watch} (hw : w ∈ σ.watches)
    (hw' : w' ∈ σ.watches) (hid : w.handle.id = w'.handle.id) : w = w' :=
  List.inj_on_of_nodup_map (List.pairwise_map.mpr hd) hw hw' hid

/-- A create message taken in the idle state `σ` and carried through, the requests
    `qs` being served in between. -/
def creation (cr : WatchCreateRequest) (qs : List Request) : List Act :=
  .message (.createRequest cr) :: (qs.map Act.serve ++ [.finish])

theorem exec_creation {σ : State} (hp : σ.phase = .idle) (cr : WatchCreateRequest)
    (qs : List Request) :
    exec step σ (creation cr qs) = some (endCreate
      { beginCreate σ cr with store := σ.store.run qs } cr (givenId σ cr)
      (if cr.startRevision > 0 then σ.store.eventsSince (cr.startRevision - 1) else [])
      σ.store.revision σ.store.compactRevision) := by
  have hbegin : step σ (.message (.createRequest cr)) = some (beginCreate σ cr) := by
    rw [step, if_pos hp]
  rw [creation, exec, hbegin, Option.bind_some, exec_serve]
  rfl

/-- A create message with a compacted start revision gets one response. -/
theorem creation_refused {σ : State} (hp : σ.phase = .idle) {cr : WatchCreateRequest}
    (hc : compacted σ cr) (qs : List Request) :
    ∃ σ', exec step σ (creation cr qs) = some σ' ∧ σ'.watches = σ.watches ∧
      σ'.out = σ.out ++ [⟨none,
        { watchId := givenId σ cr
          canceled := true
          compactRevision := σ.store.compactRevision
          cancelReason := "etcdserver: mvcc: required revision has been compacted" }⟩] := by
  unfold compacted at hc
  refine ⟨_, exec_creation hp cr qs, ?_⟩
  rw [endCreate, if_pos hc]
  exact ⟨rfl, rfl⟩

/-- Any other create message is acknowledged, is sent its history and makes a
    watch. -/
theorem creation_accepted {σ : State} (hp : σ.phase = .idle) {cr : WatchCreateRequest}
    (hc : ¬ compacted σ cr) (qs : List Request) :
    ∃ σ' history, exec step σ (creation cr qs) = some σ' ∧ σ'.created = σ.created + 1 ∧
      σ'.watches = σ.watches ++ [⟨newHandle cr (givenId σ cr) σ.store.revision, σ.created,
        cr.startRevision, σ.store.revision, σ.store.compactRevision⟩] ∧
      σ'.out = σ.out ++ ⟨some σ.created,
          { header := some (Store.headerRev σ.store.revision)
            watchId := givenId σ cr
            created := true }⟩ ::
        replay (newHandle cr (givenId σ cr) σ.store.revision) σ.created history := by
  unfold compacted at hc
  refine ⟨_, if cr.startRevision > 0 then σ.store.eventsSince (cr.startRevision - 1) else [],
    exec_creation hp cr qs, ?_⟩
  rw [endCreate, if_neg hc]
  exact ⟨rfl, rfl, rfl⟩

/-- Along every run in which each created watch gets an id that no live watch has:
    the live ids are distinct, a cancel message ends at most one watch, and every
    batch of events goes out under the id of exactly one live watch, the one it is
    for. And a further watch keeps the ids distinct exactly when it is refused or
    its id is not that of a live watch. -/
theorem ids_unambiguous (s : Store) (as : List Act) (σ : State)
    (hexec : exec step (subscribe s) as = some σ)
    (hfresh : Along step FreshId (subscribe s) as) :
    DistinctIds σ ∧
    (∀ id, σ.watches.length ≤ (cancel σ id).watches.length + 1) ∧
    (∀ a σ', FreshId σ a → step σ a = some σ' → ∀ x ∈ sentBy σ σ', x.response.events ≠ [] →
      ∃ w ∈ σ'.watches, x.watch = some w.serial ∧
        ∀ w' ∈ σ'.watches, w'.handle.id = x.response.watchId ↔ w' = w) ∧
    ∀ cr, σ.phase = .idle → ∀ qs, ∃ σ', exec step σ (creation cr qs) = some σ' ∧
      (DistinctIds σ' ↔ FreshId σ (.message (.createRequest cr))) := by
  have hσ : IdsOk σ :=
    hfresh.invariant (fun _ _ _ hf h => idsOk_step hf h) hexec (idsOk_subscribe s)
  refine ⟨hσ.1, cancel_length hσ.1, fun a σ' hf h x hx he => ?_, fun cr hp qs => ?_⟩
  · obtain ⟨w, hw, hserial, hid⟩ := batch_of_live h hx he
    refine ⟨w, hw, hserial, fun w' hw' => ⟨fun hid' => ?_, fun heq => ?_⟩⟩
    · exact eq_of_distinctIds (idsOk_step hf h hσ).1 hw' hw (hid'.trans hid)
    · rw [heq, hid]
  · by_cases hc : compacted σ cr
    · obtain ⟨σ', hexec', hwatches, -⟩ := creation_refused hp hc qs
      refine ⟨σ', hexec', iff_of_true ?_ (Or.inl hc)⟩
      rw [DistinctIds, hwatches]
      exact hσ.1
    · obtain ⟨σ', history, hexec', -, hwatches, -⟩ := creation_accepted hp hc qs
      refine ⟨σ', hexec', ?_⟩
      rw [DistinctIds, hwatches, List.pairwise_append]
      constructor
      · rintro ⟨-, -, hnew⟩
        exact Or.inr fun w hw => hnew w hw _ List.mem_cons_self
      · intro hfresh
        refine ⟨hσ.1, List.pairwise_singleton _ _, fun w hw w' hw' => ?_⟩
        rw [List.mem_singleton.mp hw']
        exact hfresh.resolve_left hc w hw

/-- Two automatic ids and the reuse of a chosen id after its watch is cancelled. -/
theorem ids_unambiguous_reused_after_cancel :
    let as : List Act := [.message (.createRequest { key := [97] }), .finish,
      .message (.createRequest { key := [98], watchId := 7 }), .finish,
      .message (.cancelRequest 7), .message (.createRequest { key := [97], watchId := 7 }), .finish]
    ∃ σ, exec step (subscribe Store.new) as = some σ ∧
      σ.watches.map (fun w => w.handle.id) = [1, 7] ∧ DistinctIds σ := by
  intro as
  refine ⟨_, rfl, by decide, ?_⟩
  have hexec : exec step (subscribe Store.new) as = some _ := rfl
  refine (ids_unambiguous Store.new as _ hexec ?_).1
  refine ⟨Or.inr (by decide), fun _ h => ?_⟩
  obtain rfl := Option.some.inj h
  refine ⟨trivial, fun _ h => ?_⟩
  obtain rfl := Option.some.inj h
  refine ⟨Or.inr (by decide), fun _ h => ?_⟩
  obtain rfl := Option.some.inj h
  refine ⟨trivial, fun _ h => ?_⟩
  obtain rfl := Option.some.inj h
  refine ⟨trivial, fun _ h => ?_⟩
  obtain rfl := Option.some.inj h
  refine ⟨Or.inr (by decide), fun _ h => ?_⟩
  obtain rfl := Option.some.inj h
  exact ⟨trivial, fun _ _ => trivial⟩

/-- A client names its watch 1; the next watch with an automatic id gets 1 as well,
    a put of its key goes out under that id, and one cancel message ends both. -/
theorem automatic_id_clashes :
    let as : List Act := [.message (.createRequest { key := [97], watchId := 1 }), .finish,
      .message (.createRequest { key := [98] }), .finish, .serve (.put { key := [98] }), .recv]
    ∃ σ, exec step (subscribe Store.new) as = some σ ∧
      σ.watches.map (fun w => w.handle.id) = [1, 1] ∧ ¬ DistinctIds σ ∧
      (batchesFor 1 σ.out).map WatchResponse.watchId = [1] ∧ (cancel σ 1).watches = [] := by
  intro as
  exact ⟨_, rfl, by decide, by decide, by decide, by decide⟩

/-! ## Announcing a watch -/

/-- The responses sent for a watch. -/
def responsesFor (n : ℕ) (out : List Sent) : List WatchResponse :=
  (out.filter fun x => x.watch = some n).map Sent.response

/-- The acknowledgement that a watch has been created under the id `wid`. -/
def Ack (wid : ℤ) (r : WatchResponse) : Prop :=
  r.created = true ∧ r.watchId = wid ∧ r.canceled = false ∧ r.events = []

/-- The first of the responses is an acknowledgement, and no other is. -/
def AckFirst (wid : ℤ) (rs : List WatchResponse) : Prop :=
  ∃ ack rest, rs = ack :: rest ∧ Ack wid ack ∧ ∀ r ∈ rest, r.created = false

/-- The watch that is created from `σ` to `σ'` is announced: what is sent for the
    create message starts with the acknowledgement, and in every later state the
    responses for the watch do, without another one. -/
structure Announced (σ σ' : State) (wid : ℤ) : Prop where
  message : AckFirst wid ((sentBy σ σ').map Sent.response)
  watch : ∀ bs τ, exec step σ' bs = some τ → AckFirst wid (responsesFor σ.created τ.out)

/-- A step only ever acknowledges the watch that it creates. -/
theorem created_step {σ σ' : State} {a : Act} (h : step σ a = some σ') :
    ∃ l, σ'.out = σ.out ++ l ∧
      ∀ x ∈ l, x.response.created = true → x.watch = some σ.created := by
  have hquiet : ∃ l, σ.out = σ.out ++ l ∧
      ∀ x ∈ l, x.response.created = true → x.watch = some σ.created :=
    ⟨[], (List.append_nil _).symm, fun x hx => absurd hx List.not_mem_nil⟩
  cases Step.of_step h with
  | cancel watchId hp => exact ⟨_, rfl, by simp⟩
  | created hp =>
    unfold endCreate
    split_ifs
    · exact ⟨_, rfl, by simp⟩
    · refine ⟨_, rfl, List.forall_mem_cons.mpr ⟨fun _ => rfl, fun x hx _ => ?_⟩⟩
      exact (mem_replay hx).1
  | answered hp => exact ⟨_, rfl, by simp [progressResponse]⟩
  | recv hp hb =>
    refine ⟨_, rfl, fun x hx hcreated => ?_⟩
    obtain ⟨w, -, -, -, hfalse⟩ := mem_offers_response hx
    rw [hfalse] at hcreated
    cases hcreated
  | lagged hp hn =>
    refine ⟨_, rfl, fun x hx hcreated => ?_⟩
    obtain ⟨w, -, rfl⟩ := List.mem_map.mp hx
    cases hcreated
  | serve q => exact hquiet
  | create cr hp => exact hquiet
  | progress hp => exact hquiet
  | unset hp => exact hquiet
  | disconnect hp => exact hquiet

/-- The watch `n` has been created and announced under the id `wid`. -/
def Acked (n : ℕ) (wid : ℤ) (σ : State) : Prop :=
  n < σ.created ∧ AckFirst wid (responsesFor n σ.out)

theorem acked_step {n : ℕ} {wid : ℤ} {σ σ' : State} {a : Act} (h : step σ a = some σ')
    (hσ : Acked n wid σ) : Acked n wid σ' := by
  obtain ⟨hn, ack, rest, heq, hack, hrest⟩ := hσ
  obtain ⟨l, hl, hcreated⟩ := created_step h
  refine ⟨hn.trans_le (created_le_step h), ack, rest ++ responsesFor n l, ?_, hack, ?_⟩
  · simp only [responsesFor, hl, List.filter_append, List.map_append] at heq ⊢
    rw [heq, List.cons_append]
  · refine List.forall_mem_append.mpr ⟨hrest, fun r hr => ?_⟩
    obtain ⟨x, hx, rfl⟩ := List.mem_map.mp hr
    obtain ⟨hx, hw⟩ := List.mem_filter.mp hx
    rw [← Bool.not_eq_true]
    intro hc
    have hwatch := hcreated x hx hc
    rw [decide_eq_true_eq, hwatch, Option.some.injEq] at hw
    omega

theorem acked_exec {n : ℕ} {wid : ℤ} {σ τ : State} {bs : List Act}
    (h : exec step σ bs = some τ) (hσ : Acked n wid σ) : Acked n wid τ :=
  exec_invariant (fun _ _ _ => acked_step) h hσ

/-- In every interleaving, whatever is served while a create message is under way:
    its watch is announced first and once, under the id it is given, exactly when
    its start revision has not been compacted. -/
theorem announced_iff {s : Store} (hs : s.Reachable) (as : List Act) (σ : State)
    (hexec : exec step (subscribe s) as = some σ) (hp : σ.phase = .idle)
    (cr : WatchCreateRequest) (qs : List Request) :
    ∃ σ', exec step σ (creation cr qs) = some σ' ∧
      (Announced σ σ' (givenId σ cr) ↔ ¬ compacted σ cr) := by
  by_cases hc : compacted σ cr
  · obtain ⟨σ', hexec', -, hout⟩ := creation_refused hp hc qs
    refine ⟨σ', hexec', iff_of_false (fun h => ?_) (not_not.mpr hc)⟩
    obtain ⟨ack, rest, heq, hack, -⟩ := h.message
    rw [sentBy_of_append hout] at heq
    rw [← (List.cons.inj heq).1] at hack
    cases hack.1
  · obtain ⟨σ', history, hexec', hcreated, -, hout⟩ := creation_accepted hp hc qs
    refine ⟨σ', hexec', iff_of_true ⟨?_, fun bs τ hbs => ?_⟩ hc⟩
    · rw [sentBy_of_append hout, List.map_cons]
      refine ⟨_, _, rfl, ⟨rfl, rfl, rfl, rfl⟩, fun r hr => ?_⟩
      obtain ⟨x, hx, rfl⟩ := List.mem_map.mp hr
      exact (mem_replay hx).2.2
    · suffices hstart : AckFirst (givenId σ cr) (responsesFor σ.created σ'.out) from
        (acked_exec hbs ⟨by omega, hstart⟩).2
      -- the serial is new, so everything sent for it is from the create message
      have hold : σ.out.filter (fun x => decide (x.watch = some σ.created)) = [] := by
        refine List.filter_eq_nil_iff.mpr fun x hx heq => ?_
        exact lt_irrefl _ ((inv_exec hs hexec).out_lt x hx _ (of_decide_eq_true heq))
      have hnew : (replay (newHandle cr (givenId σ cr) σ.store.revision) σ.created history).filter
          (fun x => decide (x.watch = some σ.created)) =
          replay (newHandle cr (givenId σ cr) σ.store.revision) σ.created history :=
        List.filter_eq_self.mpr fun x hx => decide_eq_true (mem_replay hx).1
      rw [responsesFor, hout, List.filter_append, hold, List.nil_append,
        List.filter_cons_of_pos (by simp), hnew, List.map_cons]
      refine ⟨_, _, rfl, ⟨rfl, rfl, rfl, rfl⟩, fun r hr => ?_⟩
      obtain ⟨x, hx, rfl⟩ := List.mem_map.mp hr
      exact (mem_replay hx).2.2

/-- A watch from a revision that is in the log, while another client compacts it. -/
theorem announced_while_compacting :
    let s := Store.new.run [.put { key := [97] }, .put { key := [97] }]
    let cr : WatchCreateRequest := { key := [97], startRevision := 2 }
    ∃ σ', exec step (subscribe s) (creation cr [.compact 3]) = some σ' ∧
      (responsesFor 0 σ'.out).map (fun r => (r.created, r.revision)) =
        [(true, 3), (false, 2), (false, 3)] ∧
      Announced (subscribe s) σ' 1 := by
  intro s cr
  obtain ⟨σ', hexec, hiff⟩ :=
    announced_iff (s := s) ⟨_, rfl⟩ [] (subscribe s) rfl rfl cr [.compact 3]
  refine ⟨σ', hexec, ?_, hiff.mpr (by unfold compacted; decide)⟩
  obtain rfl := Option.some.inj hexec
  decide

/-- The start revision of a create message is compacted before it arrives: the only
    response says that the watch is canceled, and none that it was created. -/
theorem compacted_watch_not_announced :
    let s := Store.new.run [.put { key := [97] }, .compact 2]
    let cr : WatchCreateRequest := { key := [97], startRevision := 1 }
    ∃ σ', exec step (subscribe s) (creation cr []) = some σ' ∧
      σ'.out.map (fun x => (x.response.watchId, x.response.created, x.response.canceled)) =
        [(1, false, true)] ∧
      ¬ Announced (subscribe s) σ' 1 := by
  intro s cr
  refine ⟨_, rfl, by decide, fun h => ?_⟩
  obtain ⟨ack, rest, heq, hack, -⟩ := h.message
  have hcreated : ack.created = false := by
    rw [← (List.cons.inj heq).1]
  rw [hack.1] at hcreated
  cases hcreated

end WatchSvc

end Kubenyx.EtcdMem
