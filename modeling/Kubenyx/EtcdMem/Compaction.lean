import Kubenyx.EtcdMem.Watch

/-!
# Listing, then watching

A client lists the keys and then watches from the revision after the one in the
answer. This works in a state whose compacted revision is not ahead of its
revision: the watch is not refused, and the log still has everything after the
compacted revision. `compact` takes the revision of the request as it is, so it can
move the horizon into the future.

* `listThenWatch_iff_horizon`: in a reachable state the three go together.
* `listThenWatch_run_iff`: they hold in all states of a run exactly when no
  compaction in it asks for a revision that does not exist yet.
-/

namespace Kubenyx.EtcdMem

open Kubenyx.Common

namespace WatchSvc

/-- Requests of other clients touch only the store. -/
theorem exec_serve (σ : State) (qs : List Request) (as : List Act) :
    exec step σ (qs.map Act.serve ++ as) = exec step { σ with store := σ.store.run qs } as := by
  induction qs generalizing σ with
  | nil => rfl
  | cons q qs ih => exact ih { σ with store := σ.store.after q }

end WatchSvc

namespace Store

/-- What a client that lists and then watches relies on. -/
structure ListThenWatch (s : Store) : Prop where
  horizon : s.compactRevision ≤ s.revision
  /-- A watch from the revision after that of a list is created, whatever is served
      between its snapshot of the store and its creation. -/
  accepted : ∀ r resp, s.rangeResponse r = .ok resp →
    ∀ (σ : WatchSvc.State) (cr : WatchCreateRequest), σ.store = s → σ.phase = .idle →
    cr.startRevision = resp.header.revision + 1 → ∀ qs : List Request,
    ∃ σ', exec WatchSvc.step σ
        (.message (.createRequest cr) :: (qs.map WatchSvc.Act.serve ++ [.finish])) = some σ' ∧
      σ'.created = σ.created + 1
  /-- The log has every batch after the compacted revision. -/
  logged : ∀ b ∈ s.tx, s.compactRevision < b.revision → b.entry ∈ s.log

theorem rangeResponse_header {s : Store} {r : RangeRequest} {resp : RangeResponse}
    (h : s.rangeResponse r = .ok resp) : resp.header = s.header := by
  unfold rangeResponse at h
  cases hk : s.rangeKvs r with
  | error p =>
    rw [hk] at h
    cases h
  | ok res =>
    rw [hk] at h
    obtain rfl := Except.ok.inj h
    rfl

/-- A watch that starts after the compacted revision is created. -/
theorem create_accepted {σ : WatchSvc.State} (hp : σ.phase = .idle) {cr : WatchCreateRequest}
    (hstart : σ.store.compactRevision < cr.startRevision) (qs : List Request) :
    ∃ σ', exec WatchSvc.step σ
        (.message (.createRequest cr) :: (qs.map WatchSvc.Act.serve ++ [.finish])) = some σ' ∧
      σ'.created = σ.created + 1 := by
  have hbegin : WatchSvc.step σ (.message (.createRequest cr)) =
      some (WatchSvc.beginCreate σ cr) := by
    rw [WatchSvc.step, if_pos hp]
  have hfresh : ¬ (cr.startRevision > 0 ∧ cr.startRevision ≤ σ.store.compactRevision) := by omega
  rw [exec, hbegin, Option.bind_some, WatchSvc.exec_serve]
  refine ⟨_, rfl, ?_⟩
  simp only [WatchSvc.beginCreate, WatchSvc.endCreate, if_neg hfresh]

theorem Reachable.logged {s : Store} (h : s.Reachable) {b : BroadcastBatch} (hb : b ∈ s.tx)
    (hc : s.compactRevision < b.revision) : b.entry ∈ s.log := by
  have hmem : b.entry ∈ (s.tx.map BroadcastBatch.entry).filter fun e => e.1 > s.compactRevision :=
    List.mem_filter.mpr ⟨List.mem_map_of_mem hb, decide_eq_true hc⟩
  rw [← h.logOk _ le_rfl] at hmem
  exact (List.mem_filter.mp hmem).1

theorem listThenWatch_iff_horizon {s : Store} (hs : s.Reachable) :
    s.ListThenWatch ↔ s.compactRevision ≤ s.revision := by
  refine ⟨ListThenWatch.horizon, fun h => ⟨h, ?_, fun b hb hc => hs.logged hb hc⟩⟩
  intro r resp hresp σ cr hstore hp hstart qs
  refine create_accepted hp ?_ qs
  rw [hstore, hstart, rangeResponse_header hresp]
  show s.compactRevision < s.revision + 1
  omega

/-! ## The horizon along runs -/

/-- The request does not compact beyond the revision of the store. -/
def compactsPast (s : Store) : Request → Bool
  | .compact revision => revision ≤ s.revision
  | _ => true

/-- No request of the run compacts beyond the revision of the store. -/
def runCompactsPast (s : Store) : List Request → Bool
  | [] => true
  | q :: qs => s.compactsPast q && runCompactsPast (s.after q) qs

/-- From a state with a past horizon, the next state has one exactly when the
    request does not compact beyond the revision. -/
theorem horizon_after_iff {s : Store} (h : s.compactRevision ≤ s.revision) (q : Request) :
    (s.after q).compactRevision ≤ (s.after q).revision ↔ s.compactsPast q = true := by
  by_cases hq : ∀ rev, q ≠ .compact rev
  · have hpast : s.compactsPast q = true := by
      cases q with
      | compact rev => exact absurd rfl (hq rev)
      | _ => rfl
    obtain ⟨bs, hbs⟩ := after_logs s q hq
    have hle := hbs.revision_le
    refine iff_of_true ?_ hpast
    rw [hbs.compactRevision]
    omega
  · push Not at hq
    obtain ⟨rev, rfl⟩ := hq
    simp only [after_compact, compact, compactsPast, decide_eq_true_eq]
    split_ifs with hrev
    · exact Iff.rfl
    · exact iff_of_true h (by omega)

theorem horizon_run_iff {s : Store} (h : s.compactRevision ≤ s.revision) (qs : List Request) :
    (∀ ps, ps <+: qs → (s.run ps).compactRevision ≤ (s.run ps).revision) ↔
      s.runCompactsPast qs = true := by
  induction qs generalizing s with
  | nil =>
    refine iff_of_true (fun ps hps => ?_) rfl
    rw [List.prefix_nil.mp hps]
    exact h
  | cons q qs ih =>
    rw [runCompactsPast, Bool.and_eq_true, ← horizon_after_iff h]
    constructor
    · intro hall
      have hq : (s.after q).compactRevision ≤ (s.after q).revision :=
        hall [q] (List.cons_prefix_cons.mpr ⟨rfl, List.nil_prefix⟩)
      exact ⟨hq, (ih hq).mp fun ps hps => hall (q :: ps) (List.cons_prefix_cons.mpr ⟨rfl, hps⟩)⟩
    · rintro ⟨hq, hqs⟩ ps hps
      rcases List.prefix_cons_iff.mp hps with rfl | ⟨ps', rfl, hps'⟩
      · exact h
      · exact (ih hq).mpr hqs ps' hps'

/-- In all states of a run a client can list and then watch, with the compacted
    revision not ahead of the revision and everything after it in the log, exactly
    when each compaction of the run asks for a revision that the store had
    reached. -/
theorem listThenWatch_run_iff (qs : List Request) :
    (∀ ps, ps <+: qs → (Store.new.run ps).ListThenWatch) ↔
      Store.new.runCompactsPast qs = true := by
  rw [← horizon_run_iff (by decide) qs]
  exact forall₂_congr fun ps _ => listThenWatch_iff_horizon ⟨ps, rfl⟩

/-- A client of a fresh store compacts at revision 100. The horizon is then ahead
    of the revision, and a watch from the revision after that of a list is refused
    as compacted. -/
theorem future_compaction_refuses_watch :
    let s := Store.new.run [.compact 100]
    s.revision = 1 ∧ s.compactRevision = 100 ∧ ¬ s.ListThenWatch ∧
      (∃ resp, s.rangeResponse { key := [0], rangeEnd := [0] } = .ok resp ∧
        resp.header.revision = 1) ∧
      ∃ σ, exec WatchSvc.step (WatchSvc.subscribe s)
          [.message (.createRequest { key := [97], startRevision := 2 }), .finish] = some σ ∧
        σ.created = 0 ∧
        σ.out.map (fun x => (x.response.canceled, x.response.compactRevision)) = [(true, 100)] :=
  ⟨by decide, by decide, fun h => absurd h.horizon (by decide), ⟨_, rfl, rfl⟩,
    ⟨_, rfl, by decide, by decide⟩⟩

end Store

end Kubenyx.EtcdMem
