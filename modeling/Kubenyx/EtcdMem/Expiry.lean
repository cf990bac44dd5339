import Kubenyx.Common.Machine
import Kubenyx.EtcdMem.LeaseIndex

/-!
# The lease-expiry task

Model of the background task of `rust/etcd-mem/src/lib.rs` (lib.rs:82-99). Every
500 ms it collects the expired leases under the store's lock, releases the lock,
and if there are any takes it again to revoke them. Requests of any number of
clients are served between the two critical sections, and time passes.

* `evicts_only_expired`: in every run in which no lease of the collected list is
  renewed or granted again before the task takes the lock for the second time,
  the task removes only entries past their deadline, and never a lease whose
  keep-alive was answered before the renewed deadline.
* `unrenewed_gone`: a lease that is not renewed is gone with its keys once the task has
  done a whole round past the deadline.
* `renewed_lease_evicted`: a keep-alive served between the critical sections is
  undone.
-/

namespace Kubenyx.EtcdMem

open Kubenyx.Common

/-- The request with its clock reading set to `now`. -/
def Request.stamp (now : Instant) : Request → Request
  | .leaseGrant _ ttl id => .leaseGrant now ttl id
  | .leaseKeepAlive _ id => .leaseKeepAlive now id
  | .leaseTimeToLive _ id keys => .leaseTimeToLive now id keys
  | q => q

theorem Instant.checkedAddSecs_le {t t' d d' : Instant} {secs : ℕ} (h : t ≤ t')
    (hd : t.checkedAddSecs secs = some d) (hd' : t'.checkedAddSecs secs = some d') : d ≤ d' := by
  unfold Instant.checkedAddSecs at hd hd'
  split_ifs at hd hd'
  obtain rfl := Option.some.inj hd
  obtain rfl := Option.some.inj hd'
  rw [Instant.le_def] at *
  show t.tvSec + secs < t'.tvSec + secs ∨
    t.tvSec + secs = t'.tvSec + secs ∧ t.tvNsec ≤ t'.tvNsec
  omega

namespace Store

/-! ## What a request does to the lease entries -/

/-- Every lease of `s'` is a lease of `s`, with the same deadline and TTL. -/
def Inherits (s s' : Store) : Prop :=
  ∀ id le', s'.leases.get? id = some le' →
    ∃ le, s.leases.get? id = some le ∧ le'.deadline = le.deadline ∧ le'.grantedTtl = le.grantedTtl

theorem Inherits.of_eq {s s' : Store} (h : s'.leases = s.leases) : Inherits s s' := by
  intro id le' hle
  rw [h] at hle
  exact ⟨le', hle, rfl, rfl⟩

theorem Inherits.trans {s s' s'' : Store} (h : Inherits s s') (h' : Inherits s' s'') :
    Inherits s s'' := by
  intro id le'' hle
  obtain ⟨le', hle', h1, h2⟩ := h' id le'' hle
  obtain ⟨le, hle, h3, h4⟩ := h id le' hle'
  exact ⟨le, hle, h1.trans h3, h2.trans h4⟩

theorem inherits_deregister {s s' : Store} {lease : ℤ} {key : Bytes}
    (h : s'.leases = deregister s.leases lease key) : Inherits s s' := by
  intro id le' hle
  rw [h] at hle
  obtain ⟨le, hold, hcases⟩ := deregister_cases hle
  refine ⟨le, hold, ?_⟩
  rcases hcases with ⟨rfl, -⟩ | ⟨rfl, -⟩ <;> exact ⟨rfl, rfl⟩

theorem inherits_register {s s' : Store} {lease : ℤ} {key : Bytes}
    (h : s'.leases = register s.leases lease key) : Inherits s s' := by
  intro id le' hle
  rw [h, get?_register] at hle
  split_ifs at hle
  · obtain ⟨le, hold, rfl⟩ := Option.map_eq_some_iff.mp hle
    refine ⟨le, hold, ?_⟩
    unfold LeaseEntry.attach
    split_ifs <;> exact ⟨rfl, rfl⟩
  · exact ⟨le', hle, rfl, rfl⟩

theorem inherits_put (s : Store) (r : PutRequest) :
    Inherits s (s.put r.key r.value r.lease r.prevKv r.ignoreValue r.ignoreLease).2 := by
  have h1 : Inherits s { s with leases := deregister s.leases (leaseOf s.kvs r.key) r.key } :=
    inherits_deregister rfl
  exact h1.trans (inherits_register (put_leases s r))

theorem inherits_deleteRange (s : Store) (key rangeEnd : Bytes) (want : Bool) :
    Inherits s (s.deleteRange key rangeEnd want).2 := by
  refine deleteRange_invariant (P := fun _ leases => Inherits s { s with leases := leases }) ?_
    (Inherits.of_eq rfl) key rangeEnd want
  intro _ leases k old _ h
  exact h.trans (inherits_deregister rfl)

theorem inherits_effect (s : Store) (ls : List LeafOp) : Inherits s (s.effect ls) :=
  effect_invariant (P := Inherits s) (fun s' r h => h.trans (inherits_put s' r))
    (fun s' r h => h.trans (inherits_deleteRange s' r.key r.rangeEnd r.prevKv)) (Inherits.of_eq rfl) ls

theorem inherits_leaseRevoke (s : Store) (id : ℤ) : Inherits s (s.leaseRevoke id).2 := by
  cases hle : s.leases.get? id with
  | none => exact Inherits.of_eq (by rw [leaseRevoke_of_none hle])
  | some le =>
    have hdrop : Inherits s (s.dropLease id) := by
      intro id' le' hle'
      have hle' : (s.leases.remove id).get? id' = some le' := hle'
      rw [OrdMap.get?_remove] at hle'
      split_ifs at hle'
      exact ⟨le', hle', rfl, rfl⟩
    rw [leaseRevoke_of_some hle]
    exact hdrop.trans (inherits_effect _ _)

/-- Where a lease entry found after a request comes from: it was there with that
    deadline, or the request granted it, or the request renewed it. -/
theorem after_lease_cases {s : Store} {q : Request} {id : ℤ} {le' : LeaseEntry}
    (h : (s.after q).leases.get? id = some le') :
    (∃ le, s.leases.get? id = some le ∧ le'.deadline = le.deadline ∧
      le'.grantedTtl = le.grantedTtl) ∨
    (∃ now ttl id', q = .leaseGrant now ttl id' ∧ s.actualId id' = id) ∨
    ∃ now le, q = .leaseKeepAlive now id ∧ s.leases.get? id = some le ∧
      now.checkedAddSecs le.grantedTtl.toNat = some le'.deadline ∧
      le'.grantedTtl = le.grantedTtl := by
  cases q with
  | range r =>
    rw [after_range] at h
    exact Or.inl ⟨le', h, rfl, rfl⟩
  | put r => exact Or.inl (inherits_put s r id le' h)
  | deleteRange r =>
    rw [after_deleteRange] at h
    exact Or.inl (inherits_deleteRange s r.key r.rangeEnd r.prevKv id le' h)
  | txn r =>
    rw [after_txn, txn_effect] at h
    exact Or.inl (inherits_effect s _ id le' h)
  | compact rev =>
    rw [after_compact, compact] at h
    split_ifs at h <;> exact Or.inl ⟨le', h, rfl, rfl⟩
  | leaseGrant now ttl id' =>
    by_cases hid : s.actualId id' = id
    · exact Or.inr (Or.inl ⟨now, ttl, id', rfl, hid⟩)
    · rw [after_leaseGrant] at h
      rcases leaseGrant_cases s now ttl id' with ⟨-, he⟩ | ⟨deadline, -, he⟩
      · rw [he] at h
        exact Or.inl ⟨le', h, rfl, rfl⟩
      · rw [he] at h
        simp only [OrdMap.get?_insert, if_neg hid] at h
        exact Or.inl ⟨le', h, rfl, rfl⟩
  | leaseRevoke id' =>
    rw [after_leaseRevoke] at h
    exact Or.inl (inherits_leaseRevoke s id' id le' h)
  | leaseKeepAlive now id' =>
    rw [after_leaseKeepAlive] at h
    rcases leaseKeepalive_cases s now id' with he | ⟨le, deadline, hle, hd, he⟩
    · rw [he] at h
      exact Or.inl ⟨le', h, rfl, rfl⟩
    · rw [he] at h
      simp only [OrdMap.get?_modify] at h
      split_ifs at h with hid
      · subst hid
        rw [hle, Option.map_some, Option.some.injEq] at h
        subst h
        exact Or.inr (Or.inr ⟨now, le, rfl, hle, hd, rfl⟩)
      · exact Or.inl ⟨le', h, rfl, rfl⟩
  | leaseTimeToLive now id' keys => exact Or.inl ⟨le', h, rfl, rfl⟩
  | leaseLeases => exact Or.inl ⟨le', h, rfl, rfl⟩

end Store

namespace Expiry

/-! ## The task and the clients -/

/-- The store, the clock, and the local variable `expired` of the task. The list
    is empty while the task waits for its next tick: the second critical section
    is skipped when nothing has expired (lib.rs:92). -/
structure State where
  store : Store
  now : Instant
  expired : List ℤ

inductive Act where
  /-- Time passes. -/
  | elapse (t : Instant)
  /-- A client request is served, reading the clock as it stands. -/
  | serve (q : Request)
  /-- First critical section (lib.rs:88-91). -/
  | scan
  /-- Second critical section (lib.rs:92-97). -/
  | evict

/-- The store after the loop of the second critical section. -/
def revokeAll (s : Store) (ids : List ℤ) : Store := ids.foldl (fun s id => (s.leaseRevoke id).2) s

/-- The lease entries that the loop removes. -/
def removed (s : Store) : List ℤ → List (ℤ × LeaseEntry)
  | [] => []
  | id :: ids => ((s.leases.get? id).toList.map fun le => (id, le)) ++ removed (s.leaseRevoke id).2 ids

/-- One step of the system. -/
def step (σ : State) : Act → Option State
  | .elapse t => if σ.now ≤ t then some { σ with now := t } else none
  | .serve q => some { σ with store := σ.store.after (q.stamp σ.now) }
  | .scan => if σ.expired = [] then some { σ with expired := σ.store.expiredLeases σ.now } else none
  | .evict =>
    if σ.expired = [] then none
    else some { σ with store := revokeAll σ.store σ.expired, expired := [] }

/-- The fresh store at some time, with the task at its first tick. -/
def start (t : Instant) : State := ⟨Store.new, t, []⟩

/-- What the second critical section removes if it runs now. -/
def evicted (σ : State) : List (ℤ × LeaseEntry) := removed σ.store σ.expired

/-- The step does not renew or grant a lease that the task has collected and not
    yet revoked. -/
def quiet (σ : State) : Act → Prop
  | .serve (.leaseGrant _ _ id) => σ.store.actualId id ∉ σ.expired
  | .serve (.leaseKeepAlive _ id) => (σ.store.leases.get? id).isSome → id ∉ σ.expired
  | _ => True

/-- The step does not grant the lease `id`. -/
def noGrant (id : ℤ) (σ : State) : Act → Prop
  | .serve (.leaseGrant _ _ id') => σ.store.actualId id' ≠ id
  | _ => True

/-! ## Collected leases stay expired -/

/-- Every collected lease that is still there is past its deadline. -/
structure Inv (σ : State) : Prop where
  reachable : σ.store.Reachable
  expired : ∀ id ∈ σ.expired, ∀ le, σ.store.leases.get? id = some le → le.deadline ≤ σ.now

theorem revokeAll_reachable {s : Store} (h : s.Reachable) (ids : List ℤ) :
    (revokeAll s ids).Reachable := by
  induction ids generalizing s with
  | nil => exact h
  | cons id ids ih => exact ih (h.after (.leaseRevoke id))

theorem mem_removed {ids : List ℤ} : ∀ {s : Store} {id : ℤ} {le' : LeaseEntry},
    (id, le') ∈ removed s ids →
    id ∈ ids ∧ ∃ le, s.leases.get? id = some le ∧ le'.deadline = le.deadline := by
  induction ids with
  | nil =>
    intro s id le' h
    cases h
  | cons id₀ ids ih =>
    intro s id le' h
    rw [removed, List.mem_append] at h
    rcases h with h | h
    · obtain ⟨le, hle, heq⟩ := List.mem_map.mp h
      obtain ⟨rfl, rfl⟩ := Prod.mk.injEq .. ▸ heq
      exact ⟨List.mem_cons_self, le, Option.mem_toList.mp hle, rfl⟩
    · obtain ⟨hmem, le, hle, hd⟩ := ih h
      obtain ⟨le₀, hle₀, hd₀, -⟩ := Store.inherits_leaseRevoke s id₀ id le hle
      exact ⟨List.mem_cons_of_mem _ hmem, le₀, hle₀, hd.trans hd₀⟩

/-- The first critical section collects leases that are past their deadline. -/
theorem expiredLeases_deadline {s : Store} (hs : s.Reachable) {now : Instant} {id : ℤ}
    {le : LeaseEntry} (hid : id ∈ s.expiredLeases now) (hle : s.leases.get? id = some le) :
    le.deadline ≤ now := by
  obtain ⟨le', hle', rfl⟩ := List.mem_map.mp hid
  obtain ⟨hval, hd⟩ := List.mem_filter.mp hle'
  obtain ⟨id', hget⟩ := OrdMap.mem_values_iff.mp hval
  rw [← hs.leaseIndex.id_eq id' le' hget, hle] at hget
  obtain rfl := Option.some.inj hget
  simpa using hd

theorem inv_start (t : Instant) : Inv (start t) := ⟨Store.reachable_new, by simp [start]⟩

theorem inv_step {σ σ' : State} {a : Act} (hq : quiet σ a) (h : step σ a = some σ')
    (hσ : Inv σ) : Inv σ' := by
  cases a with
  | elapse t =>
    simp only [step, Option.ite_none_right_eq_some, Option.some.injEq] at h
    obtain ⟨ht, rfl⟩ := h
    exact ⟨hσ.reachable, fun id hid le hle => Instant.le_trans (hσ.expired id hid le hle) ht⟩
  | serve q =>
    obtain rfl := Option.some.inj h
    refine ⟨hσ.reachable.after _, fun id hid le hle => ?_⟩
    rcases Store.after_lease_cases hle with ⟨le₀, hle₀, hd, -⟩ | ⟨now, ttl, id', hqe, hact⟩ |
      ⟨now, le₀, hqe, hle₀, -, -⟩
    · rw [hd]
      exact hσ.expired id hid le₀ hle₀
    · -- a grant of the id: excluded while the id is collected
      cases q <;> simp only [Request.stamp, Request.leaseGrant.injEq, reduceCtorEq] at hqe
      obtain ⟨-, -, rfl⟩ := hqe
      rw [quiet, hact] at hq
      exact absurd hid hq
    · -- a renewal of the live lease: excluded while the id is collected
      cases q <;> simp only [Request.stamp, Request.leaseKeepAlive.injEq, reduceCtorEq] at hqe
      obtain ⟨-, rfl⟩ := hqe
      exact absurd hid (hq (by rw [hle₀]; rfl))
  | scan =>
    simp only [step, Option.ite_none_right_eq_some, Option.some.injEq] at h
    obtain ⟨-, rfl⟩ := h
    exact ⟨hσ.reachable, fun id hid le hle => expiredLeases_deadline hσ.reachable hid hle⟩
  | evict =>
    simp only [step, Option.ite_none_left_eq_some, Option.some.injEq] at h
    obtain ⟨-, rfl⟩ := h
    exact ⟨revokeAll_reachable hσ.reachable σ.expired, by simp⟩

/-! ## Renewed leases -/

/-- The lease `id`, if it is there, runs at least until `d`, the time `t` of a
    renewal plus its TTL, and so will any renewal from now on. -/
structure Renewed (id ttl : ℤ) (t d : Instant) (σ : State) : Prop where
  add : t.checkedAddSecs ttl.toNat = some d
  now : t ≤ σ.now
  entry : ∀ le, σ.store.leases.get? id = some le → le.grantedTtl = ttl ∧ d ≤ le.deadline

theorem inherits_revokeAll (s : Store) (ids : List ℤ) : Store.Inherits s (revokeAll s ids) := by
  induction ids generalizing s with
  | nil => exact Store.Inherits.of_eq rfl
  | cons id ids ih => exact (Store.inherits_leaseRevoke s id).trans (ih _)

theorem renewed_step {id ttl : ℤ} {t d : Instant} {σ σ' : State} {a : Act} (hn : noGrant id σ a)
    (h : step σ a = some σ') (hσ : Renewed id ttl t d σ) : Renewed id ttl t d σ' := by
  cases a with
  | elapse t' =>
    simp only [step, Option.ite_none_right_eq_some, Option.some.injEq] at h
    obtain ⟨ht, rfl⟩ := h
    exact ⟨hσ.add, Instant.le_trans hσ.now ht, hσ.entry⟩
  | serve q =>
    obtain rfl := Option.some.inj h
    refine ⟨hσ.add, hσ.now, fun le hle => ?_⟩
    rcases Store.after_lease_cases hle with ⟨le₀, hle₀, hd, httl⟩ | ⟨now, ttl', id', hqe, hact⟩ |
      ⟨now, le₀, hqe, hle₀, hd, httl⟩
    · rw [hd, httl]
      exact hσ.entry le₀ hle₀
    · cases q <;> simp only [Request.stamp, Request.leaseGrant.injEq, reduceCtorEq] at hqe
      obtain ⟨-, -, rfl⟩ := hqe
      exact absurd hact hn
    · cases q <;> simp only [Request.stamp, Request.leaseKeepAlive.injEq, reduceCtorEq] at hqe
      obtain ⟨rfl, -⟩ := hqe
      have httl₀ := (hσ.entry le₀ hle₀).1
      rw [httl₀] at hd
      exact ⟨httl.trans httl₀, Instant.checkedAddSecs_le hσ.now hσ.add hd⟩
  | scan =>
    simp only [step, Option.ite_none_right_eq_some, Option.some.injEq] at h
    obtain ⟨-, rfl⟩ := h
    exact ⟨hσ.add, hσ.now, hσ.entry⟩
  | evict =>
    simp only [step, Option.ite_none_left_eq_some, Option.some.injEq] at h
    obtain ⟨-, rfl⟩ := h
    refine ⟨hσ.add, hσ.now, fun le hle => ?_⟩
    obtain ⟨le₀, hle₀, hd, httl⟩ := inherits_revokeAll σ.store σ.expired id le hle
    rw [hd, httl]
    exact hσ.entry le₀ hle₀

/-- An answer with a positive TTL means that the lease now runs for that TTL. -/
theorem keepAlive_answer {s : Store} {now d : Instant} {id : ℤ} {resp : LeaseKeepAliveResponse}
    (h : (s.serve (.leaseKeepAlive now id)).1 = .ok (.leaseKeepAlive resp)) (hpos : 0 < resp.ttl)
    (hd : now.checkedAddSecs resp.ttl.toNat = some d) {le : LeaseEntry}
    (hle : (s.after (.leaseKeepAlive now id)).leases.get? id = some le) :
    le.grantedTtl = resp.ttl ∧ d ≤ le.deadline := by
  rw [Store.after_leaseKeepAlive] at hle
  simp only [Store.serve, LeaseSvc.leaseKeepAlive, Store.leaseKeepalive] at h hle
  cases hget : s.leases.get? id with
  | none =>
    -- an unknown lease is answered with TTL 0
    simp only [hget] at h
    injection h with h
    injection h with h
    subst h
    simp at hpos
  | some le₀ =>
    simp only [hget] at h hle
    cases hadd : now.checkedAddSecs le₀.grantedTtl.toNat with
    | none =>
      simp only [hadd] at h
      cases h
    | some deadline =>
      simp only [hadd] at h hle
      injection h with h
      injection h with h
      subst h
      rw [hadd] at hd
      obtain rfl := Option.some.inj hd
      simp only [OrdMap.get?_modify, if_true, hget, Option.map_some, Option.some.injEq] at hle
      subst hle
      exact ⟨rfl, Instant.le_refl _⟩

/-- In every run in which no collected lease is renewed or granted before it is
    revoked: whatever the task removes is past its deadline; and once a
    keep-alive has been answered with a positive TTL, the task does not remove
    the lease before the renewed deadline `d`, unless it is granted anew. -/
theorem evicts_only_expired (t : Instant) (as : List Act) (σ : State)
    (hexec : exec step (start t) as = some σ) (hq : Along step quiet (start t) as) :
    (∀ id le, (id, le) ∈ evicted σ → le.deadline ≤ σ.now) ∧
    ∀ id resp d,
      (σ.store.serve (.leaseKeepAlive σ.now id)).1 = .ok (.leaseKeepAlive resp) → 0 < resp.ttl →
      σ.now.checkedAddSecs resp.ttl.toNat = some d →
      ∀ bs τ, exec step σ (.serve (.leaseKeepAlive σ.now id) :: bs) = some τ →
        Along step quiet σ (.serve (.leaseKeepAlive σ.now id) :: bs) →
        Along step (noGrant id) σ (.serve (.leaseKeepAlive σ.now id) :: bs) →
        ∀ le, (id, le) ∈ evicted τ → d ≤ τ.now := by
  have hinv : Inv σ := hq.invariant (fun _ _ _ => inv_step) hexec (inv_start t)
  have hexpired : ∀ {τ : State}, Inv τ → ∀ id le, (id, le) ∈ evicted τ →
      le.deadline ≤ τ.now ∧ ∃ le₀, τ.store.leases.get? id = some le₀ ∧ le.deadline = le₀.deadline := by
    intro τ hτ id le hmem
    obtain ⟨hid, le₀, hle₀, hd⟩ := mem_removed hmem
    exact ⟨by rw [hd]; exact hτ.expired id hid le₀ hle₀, le₀, hle₀, hd⟩
  refine ⟨fun id le hmem => (hexpired hinv id le hmem).1, ?_⟩
  intro id resp d hans hpos hd bs τ hrun hq' hn le hmem
  have hτ : Inv τ := hq'.invariant (fun _ _ _ => inv_step) hrun hinv
  obtain ⟨σ₁, hσ₁, hrest⟩ := exec_cons_iff.mp hrun
  have hren : Renewed id resp.ttl σ.now d σ₁ := by
    obtain rfl := Option.some.inj hσ₁
    exact ⟨hd, Instant.le_refl _, fun le hle => keepAlive_answer hans hpos hd hle⟩
  have hren' : Renewed id resp.ttl σ.now d τ :=
    (hn.2 σ₁ hσ₁).invariant (fun _ _ _ => renewed_step) hrest hren
  obtain ⟨hdead, le₀, hle₀, heq⟩ := hexpired hτ id le hmem
  rw [heq] at hdead
  exact Instant.le_trans (hren'.entry le₀ hle₀).2 hdead

/-- A lease of one second, collected two seconds after it was granted. -/
theorem evicts_only_expired_unrenewed :
    let as : List Act := [.serve (.leaseGrant ⟨0, 0, by decide, by decide⟩ 1 7),
      .elapse ⟨2, 0, by decide, by decide⟩, .scan]
    ∃ σ, exec step (start ⟨0, 0, by decide, by decide⟩) as = some σ ∧
      (evicted σ).map Prod.fst = [7] ∧ ∀ id le, (id, le) ∈ evicted σ → le.deadline ≤ σ.now := by
  intro as
  refine ⟨_, rfl, by decide, (evicts_only_expired ⟨0, 0, by decide, by decide⟩ as _ rfl ?_).1⟩
  refine ⟨?_, fun _ _ => ⟨trivial, fun _ _ => ⟨trivial, fun _ _ => trivial⟩⟩⟩
  simp [quiet, start]

/-- The same lease with a key, renewed between the two critical sections: the
    keep-alive is answered with TTL 1 at second 2, and the second critical section
    removes the entry with deadline 3 and the key at second 2. -/
theorem renewed_lease_evicted :
    let as : List Act := [.serve (.leaseGrant ⟨0, 0, by decide, by decide⟩ 1 7),
      .serve (.put { key := [97], lease := 7 }), .elapse ⟨2, 0, by decide, by decide⟩, .scan]
    let keepAlive : Request := .leaseKeepAlive ⟨2, 0, by decide, by decide⟩ 7
    ∃ σ σ' τ resp le, exec step (start ⟨0, 0, by decide, by decide⟩) as = some σ ∧
      (σ.store.serve (keepAlive.stamp σ.now)).1 = .ok (.leaseKeepAlive resp) ∧ resp.ttl = 1 ∧
      step σ (.serve keepAlive) = some σ' ∧ (7, le) ∈ evicted σ' ∧ ¬ le.deadline ≤ σ'.now ∧
      step σ' .evict = some τ ∧ τ.store.kvs.get? [97] = none :=
  ⟨_, _, _, _, ⟨7, 1, ⟨3, 0, by decide, by decide⟩, [[97]]⟩, rfl, rfl, rfl, rfl, by decide,
    by decide, rfl, by decide⟩

/-! ## Leases that are not renewed -/

/-- The step does not grant or renew the lease `id`. -/
def unrenewed (id : ℤ) (σ : State) : Act → Prop
  | .serve (.leaseGrant _ _ id') => σ.store.actualId id' ≠ id
  | .serve (.leaseKeepAlive _ id') => id' ≠ id
  | _ => True

/-- The step attaches no key to a lease that is not live, and grants no lease in place of a live
    one that has keys. -/
def attaching (σ : State) : Act → Prop
  | .serve q => σ.store.attaches (q.stamp σ.now) = true
  | _ => True

section unrenewed

variable {id : ℤ} {s : Store} {σ σ' : State} {a : Act}

theorem unrenewed_noGrant (h : unrenewed id σ a) : noGrant id σ a := by
  cases a with
  | serve q =>
    cases q <;> first | exact h | trivial
  | elapse t => trivial
  | scan => trivial
  | evict => trivial

/-- What a step does to the store. -/
theorem step_store (h : step σ a = some σ') :
    σ'.store = σ.store ∨ (∃ q, a = .serve q ∧ σ'.store = σ.store.after (q.stamp σ.now)) ∨
      σ'.store = revokeAll σ.store σ.expired := by
  cases a with
  | elapse t =>
    simp only [step, Option.ite_none_right_eq_some, Option.some.injEq] at h
    obtain ⟨-, rfl⟩ := h
    exact Or.inl rfl
  | serve q =>
    obtain rfl := Option.some.inj h
    exact Or.inr (Or.inl ⟨q, rfl, rfl⟩)
  | scan =>
    simp only [step, Option.ite_none_right_eq_some, Option.some.injEq] at h
    obtain ⟨-, rfl⟩ := h
    exact Or.inl rfl
  | evict =>
    simp only [step, Option.ite_none_left_eq_some, Option.some.injEq] at h
    obtain ⟨-, rfl⟩ := h
    exact Or.inr (Or.inr rfl)

/-- Where a lease found after a step comes from: it was there with that deadline, or the step
    granted or renewed it. -/
theorem step_lease_cases (h : step σ a = some σ') {le : LeaseEntry}
    (hle : σ'.store.leases.get? id = some le) :
    (∃ le₀, σ.store.leases.get? id = some le₀ ∧ le.deadline = le₀.deadline) ∨
    (∃ now ttl id', a = .serve (.leaseGrant now ttl id') ∧ σ.store.actualId id' = id) ∨
    ∃ now, a = .serve (.leaseKeepAlive now id) ∧ σ.store.leases.get? id ≠ none := by
  obtain heq | ⟨q, rfl, heq⟩ | heq := step_store h
  · exact Or.inl ⟨le, by rw [← heq, hle], rfl⟩
  · rw [heq] at hle
    rcases Store.after_lease_cases hle with ⟨le₀, hle₀, hd, -⟩ | ⟨now, ttl, id', hqe, hact⟩ |
      ⟨now, le₀, hqe, hle₀, -⟩
    · exact Or.inl ⟨le₀, hle₀, hd⟩
    · cases q <;> simp only [Request.stamp, Request.leaseGrant.injEq, reduceCtorEq] at hqe
      obtain ⟨-, -, rfl⟩ := hqe
      exact Or.inr (Or.inl ⟨_, _, _, rfl, hact⟩)
    · cases q <;> simp only [Request.stamp, Request.leaseKeepAlive.injEq, reduceCtorEq] at hqe
      obtain ⟨-, rfl⟩ := hqe
      exact Or.inr (Or.inr ⟨_, rfl, by rw [hle₀]; exact Option.some_ne_none _⟩)
  · rw [heq] at hle
    obtain ⟨le₀, hle₀, hd, -⟩ := inherits_revokeAll σ.store σ.expired id le hle
    exact Or.inl ⟨le₀, hle₀, hd⟩

/-- A lease that is gone comes back by a grant only. -/
theorem absent_step (hn : noGrant id σ a) (h : step σ a = some σ')
    (hσ : σ.store.leases.get? id = none) : σ'.store.leases.get? id = none := by
  rw [Option.eq_none_iff_forall_ne_some]
  intro le hle
  obtain ⟨le₀, hle₀, -⟩ | ⟨now, ttl, id', rfl, hact⟩ | ⟨now, -, hlive⟩ := step_lease_cases h hle
  · rw [hσ] at hle₀
    cases hle₀
  · exact hn hact
  · exact hlive hσ

/-- The lease `id`, if it is there, has the deadline `d`. -/
def Dated (id : ℤ) (d : Instant) (σ : State) : Prop :=
  ∀ le, σ.store.leases.get? id = some le → le.deadline = d

theorem dated_step {d : Instant} (hq : unrenewed id σ a) (h : step σ a = some σ')
    (hσ : Dated id d σ) : Dated id d σ' := by
  intro le hle
  obtain ⟨le₀, hle₀, hd⟩ | ⟨now, ttl, id', rfl, hact⟩ | ⟨now, rfl, -⟩ := step_lease_cases h hle
  · rw [hd]
    exact hσ le₀ hle₀
  · exact absurd hact hq
  · exact absurd rfl hq

/-- The first critical section collects every lease past its deadline. -/
theorem mem_expiredLeases (hs : s.Reachable) {now : Instant} {le : LeaseEntry}
    (hle : s.leases.get? id = some le) (hd : le.deadline ≤ now) : id ∈ s.expiredLeases now := by
  refine List.mem_map.mpr ⟨le, List.mem_filter.mpr ⟨OrdMap.mem_values_iff.mpr ⟨id, hle⟩, ?_⟩, ?_⟩
  · simpa using hd
  · exact hs.leaseIndex.id_eq id le hle

/-- Revoking a lease removes it. -/
theorem leaseRevoke_absent (s : Store) (id : ℤ) : (s.leaseRevoke id).2.leases.get? id = none := by
  cases hle : s.leases.get? id with
  | none => rwa [Store.leaseRevoke_of_none hle]
  | some le =>
    rw [Store.leaseRevoke_of_some hle, Option.eq_none_iff_forall_ne_some]
    intro le' hle'
    obtain ⟨le₀, hle₀, -⟩ := Store.inherits_effect (s.dropLease id) _ id le' hle'
    have hdropped : (s.dropLease id).leases.get? id = none := OrdMap.get?_remove_self ..
    rw [hdropped] at hle₀
    cases hle₀

theorem revokeAll_absent {ids : List ℤ} (hid : id ∈ ids) :
    (revokeAll s ids).leases.get? id = none := by
  induction ids generalizing s with
  | nil => cases hid
  | cons id₀ ids ih =>
    rcases List.mem_cons.mp hid with rfl | hid
    · rw [Option.eq_none_iff_forall_ne_some]
      intro le hle
      obtain ⟨le₀, hle₀, -⟩ := inherits_revokeAll (s.leaseRevoke id).2 ids id le hle
      rw [leaseRevoke_absent] at hle₀
      cases hle₀
    · exact ih hid

/-- The lease is on the list of the task, or gone. -/
def Doomed (id : ℤ) (σ : State) : Prop := id ∈ σ.expired ∨ σ.store.leases.get? id = none

theorem doomed_step (hq : unrenewed id σ a) (h : step σ a = some σ') (hσ : Doomed id σ) :
    Doomed id σ' := by
  obtain hmem | habsent := hσ
  · cases a with
    | elapse t =>
      simp only [step, Option.ite_none_right_eq_some, Option.some.injEq] at h
      obtain ⟨-, rfl⟩ := h
      exact Or.inl hmem
    | serve q =>
      obtain rfl := Option.some.inj h
      exact Or.inl hmem
    | scan =>
      simp only [step, Option.ite_none_right_eq_some, Option.some.injEq] at h
      rw [h.1] at hmem
      cases hmem
    | evict =>
      simp only [step, Option.ite_none_left_eq_some, Option.some.injEq] at h
      obtain ⟨-, rfl⟩ := h
      exact Or.inr (revokeAll_absent hmem)
  · exact Or.inr (absent_step (unrenewed_noGrant hq) h habsent)

/-- Every leased key is on the list of its lease, along the runs whose requests attach. -/
structure Listed (σ : State) : Prop where
  reachable : σ.store.Reachable
  noOrphans : σ.store.NoOrphans

theorem noOrphans_revokeAll (hs : s.Reachable) (h : s.NoOrphans) (ids : List ℤ) :
    (revokeAll s ids).NoOrphans := by
  induction ids generalizing s with
  | nil => exact h
  | cons id ids ih =>
    exact ih (hs.after (.leaseRevoke id)) (Store.noOrphans_leaseRevoke hs.leaseInv h id)

theorem listed_step (hq : attaching σ a) (h : step σ a = some σ') (hσ : Listed σ) : Listed σ' := by
  obtain heq | ⟨q, rfl, heq⟩ | heq := step_store h
  · exact ⟨heq ▸ hσ.reachable, heq ▸ hσ.noOrphans⟩
  · exact ⟨heq ▸ hσ.reachable.after _,
      heq ▸ Store.noOrphans_after hσ.reachable.leaseInv hσ.noOrphans _ hq⟩
  · exact ⟨heq ▸ revokeAll_reachable hσ.reachable _,
      heq ▸ noOrphans_revokeAll hσ.reachable hσ.noOrphans _⟩

theorem reachable_step (h : step σ a = some σ') (hσ : σ.store.Reachable) : σ'.store.Reachable := by
  obtain heq | ⟨q, rfl, heq⟩ | heq := step_store h
  · exact heq ▸ hσ
  · exact heq ▸ hσ.after _
  · exact heq ▸ revokeAll_reachable hσ _

theorem reachable_exec {as : List Act} (h : exec step σ as = some σ') (hσ : σ.store.Reachable) :
    σ'.store.Reachable :=
  @exec_invariant _ _ step σ σ' as (·.store.Reachable) (fun _ _ _ => reachable_step) h hσ

end unrenewed

/-- In every run: a lease that is not renewed from some state on is gone when the task waits for a
    tick again after a first scan past the deadline, and stays so until it is granted again; and
    if no request has attached a key to a lease that was not live or replaced a live lease that had
    keys, its keys are gone with it. -/
theorem unrenewed_gone (t : Instant) (as : List Act) (σ : State)
    (hexec : exec step (start t) as = some σ) {id : ℤ} {le : LeaseEntry}
    (hle : σ.store.leases.get? id = some le) (cs : List Act) (τ : State)
    (hcs : exec step σ cs = some τ) (hq : Along step (unrenewed id) σ cs)
    (hd : le.deadline ≤ τ.now) (ds : List Act) (ω : State)
    (hds : exec step τ (.scan :: ds) = some ω) (hq' : Along step (unrenewed id) τ (.scan :: ds))
    (hidle : ω.expired = []) :
    (∀ es χ, exec step ω es = some χ → Along step (noGrant id) ω es →
      χ.store.leases.get? id = none) ∧
    (Along step attaching (start t) (as ++ (cs ++ .scan :: ds)) →
      ∀ k kv, ω.store.kvs.get? k = some kv → kv.lease ≠ id) := by
  have hσ := reachable_exec hexec Store.reachable_new
  have hτ := reachable_exec hcs hσ
  have hdated : Dated id le.deadline τ :=
    hq.invariant (fun _ _ _ => dated_step) hcs fun le' hle' => by
      rw [Option.some.inj (hle.symm.trans hle')]
  -- the scan collects the lease, unless it is gone
  obtain ⟨τ', hscan, hrest⟩ := exec_cons_iff.mp hds
  have hdoomed : Doomed id τ' := by
    simp only [step, Option.ite_none_right_eq_some, Option.some.injEq] at hscan
    obtain ⟨-, rfl⟩ := hscan
    cases hlive : τ.store.leases.get? id with
    | none => exact Or.inr hlive
    | some le' => exact Or.inl (mem_expiredLeases hτ hlive (by rw [hdated le' hlive]; exact hd))
  have habsent : ω.store.leases.get? id = none := by
    have hend : Doomed id ω := (hq'.2 τ' hscan).invariant (fun _ _ _ => doomed_step) hrest hdoomed
    rw [Doomed, hidle] at hend
    exact hend.resolve_left List.not_mem_nil
  refine ⟨fun es χ hes hn => hn.invariant (fun _ _ _ => absent_step) hes habsent, ?_⟩
  intro hattach k kv hk heq
  have hrun : exec step (start t) (as ++ (cs ++ .scan :: ds)) = some ω := by
    rw [exec_append, hexec, Option.bind_some, exec_append, hcs, Option.bind_some]
    exact hds
  have hlisted : Listed ω := hattach.invariant (fun _ _ _ => listed_step) hrun
    ⟨Store.reachable_new, fun k kv hk => by simp [start, Store.new] at hk⟩
  have hne : kv.lease ≠ 0 := by
    rw [heq]
    exact hσ.leaseIndex.id_ne_zero hle
  obtain ⟨le', hle', -⟩ := hlisted.noOrphans k kv hk hne
  rw [heq, habsent] at hle'
  cases hle'

/-- A lease of one second with a key, two seconds after it was granted. -/
theorem unrenewed_gone_key :
    let as : List Act := [.serve (.leaseGrant ⟨0, 0, by decide, by decide⟩ 1 7),
      .serve (.put { key := [97], lease := 7 })]
    ∃ σ τ ω, exec step (start ⟨0, 0, by decide, by decide⟩) as = some σ ∧
      exec step σ [.elapse ⟨2, 0, by decide, by decide⟩] = some τ ∧
      exec step τ [.scan, .evict] = some ω ∧ ω.store.leases.get? 7 = none ∧
      ∀ k kv, ω.store.kvs.get? k = some kv → kv.lease ≠ 7 := by
  intro as
  have hgone := @unrenewed_gone ⟨0, 0, by decide, by decide⟩ as _ rfl 7
    ⟨7, 1, ⟨1, 0, by decide, by decide⟩, [[97]]⟩ rfl [.elapse ⟨2, 0, by decide, by decide⟩] _ rfl
    ⟨trivial, fun _ _ => trivial⟩ (by decide) [.evict] _ rfl
    ⟨trivial, fun _ _ => ⟨trivial, fun _ _ => trivial⟩⟩ rfl
  refine ⟨_, _, _, rfl, rfl, rfl, hgone.1 [] _ rfl trivial, hgone.2 ⟨rfl, fun s' hs' => ?_⟩⟩
  obtain rfl := Option.some.inj hs'
  exact ⟨rfl, fun _ _ => ⟨trivial, fun _ _ => ⟨trivial, fun _ _ => ⟨trivial, fun _ _ => trivial⟩⟩⟩⟩

end Expiry

end Kubenyx.EtcdMem
