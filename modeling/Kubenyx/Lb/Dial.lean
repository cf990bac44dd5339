import Kubenyx.Common.Rotation
import Kubenyx.Lb.Health

/-!
# Dialling

Model of `pick_order` (kubenyx-lb lib.rs:187-199) and of `handle` (lib.rs:378-411) up to the
forwarding: a connection takes the next value of a shared counter, which has 64 bits and wraps
around, and dials the backends in the order that this value gives until one of them accepts.

* `pickOrder_spec`: every backend once, healthy ones first, each group in cyclic order.
* `dial_reaches_iff`: a connection gets through exactly when some backend accepts.
* `serve_fair`: with consecutive values of the counter every healthy backend gets its turn.
* `dialling`: the three together.
-/

namespace Kubenyx.Lb

open Kubenyx.Common

/-- `pick_order` (lib.rs:191-199). -/
def pickOrder (healthy : List Bool) (cursor : ℕ) : List ℕ :=
  let n := healthy.length
  let rotated := fun keep => ((List.range n).map fun i => (cursor + i) % n).filter fun i =>
    healthy[i]? = some keep
  rotated true ++ rotated false

example : pickOrder [true, false, true] 1 = [2, 0, 1] ∧ pickOrder [true, true, true] 2 = [2, 0, 1] ∧
    pickOrder [false, false] 0 = [0, 1] ∧ pickOrder [true] 7 = [0] := by decide

/-- The loop of `handle` (lib.rs:389-397): the lines that it prints, and the backend that the
    connection is forwarded to. -/
def dial (specs : List Text) (connect : ℕ → Except Text Unit) : List ℕ → List Text × Option ℕ
  | [] => ([], none)
  | i :: order =>
    match connect i with
    | .ok () => ([], some i)
    | .error e =>
      let r := dial specs connect order
      (("kubenyx-lb: dial ".toList ++ specs.getD i [] ++ " failed: ".toList ++ e) :: r.1, r.2)

/-- The order that `handle` dials in (lib.rs:384-389), for the value of the counter that it
    takes. -/
def dialOrder (healthy : List Bool) (counter : ℕ) : List ℕ :=
  pickOrder healthy (counter % healthy.length)

/-- `handle` (lib.rs:378-411), less the forwarding: the value of the counter afterwards, the
    lines, and the backend. -/
def handle (backends : List Backend) (connect : ℕ → Except Text Unit) (counter : ℕ) :
    ℕ × List Text × Option ℕ :=
  ((counter + 1) % 2 ^ 64,
    dial (backends.map Backend.spec) connect (dialOrder (backends.map Backend.healthy) counter))

/-! ## The order -/

section order

variable {healthy : List Bool} {c i : ℕ}

/-- Whether a backend is healthy. -/
def isHealthy (healthy : List Bool) (i : ℕ) : Bool := healthy.getD i false

theorem getElem?_eq_some_iff {keep : Bool} (hi : i < healthy.length) :
    healthy[i]? = some keep ↔ isHealthy healthy i = keep := by
  unfold isHealthy
  rw [List.getD_eq_getElem?_getD, List.getElem?_eq_getElem hi]
  simp

/-- The order is a rotation of the indices, with the healthy ones moved to the front. -/
theorem pickOrder_eq (healthy : List Bool) (c : ℕ) :
    pickOrder healthy c = partitioned (isHealthy healthy) (rotation healthy.length c) := by
  have hfilter : ∀ keep : Bool, (rotation healthy.length c).filter (fun i => healthy[i]? = some keep) =
      (rotation healthy.length c).filter fun i => isHealthy healthy i = keep := by
    intro keep
    refine List.filter_congr fun i hi => ?_
    have hlt : i < healthy.length := List.mem_range.mp ((rotation_perm _ c).subset hi)
    exact decide_eq_decide.mpr (getElem?_eq_some_iff hlt)
  unfold pickOrder partitioned
  show (rotation healthy.length c).filter _ ++ (rotation healthy.length c).filter _ = _
  rw [hfilter true, hfilter false]

/-- Every backend once, the healthy ones before the others, and each group by the distance from
    the cursor. -/
structure TriesAll (healthy : List Bool) (c : ℕ) (order : List ℕ) : Prop where
  perm : order.Perm (List.range healthy.length)
  healthyFirst : order.Pairwise fun i j => isHealthy healthy j = true → isHealthy healthy i = true
  cyclic : ∀ keep, (order.filter fun i => isHealthy healthy i = keep).Pairwise fun i j =>
    offset healthy.length c i < offset healthy.length c j

theorem pickOrder_spec (hc : c < healthy.length) : TriesAll healthy c (pickOrder healthy c) := by
  rw [pickOrder_eq]
  refine ⟨(partitioned_perm _ _).trans (rotation_perm _ c), partitioned_pairwise _ _, fun keep => ?_⟩
  rw [filter_partitioned]
  exact (rotation_pairwise hc).filter _

/-- A healthy backend that the cursor points to is the first choice. -/
theorem head?_pickOrder (hi : i < healthy.length) (hhealthy : isHealthy healthy i = true) :
    (pickOrder healthy i).head? = some i := by
  rw [pickOrder_eq]
  exact head?_partitioned (rotation_head hi) hhealthy

end order

/-! ## Connections -/

section connections

variable {specs : List Text} {connect : ℕ → Except Text Unit} {order : List ℕ}

/-- The first backend of the order that accepts gets the connection. -/
theorem dial_eq_find? : (dial specs connect order).2 = order.find? fun i => (connect i).isOk := by
  induction order with
  | nil => rfl
  | cons i order ih =>
    rw [dial, List.find?_cons]
    cases h : connect i with
    | ok _ => rfl
    | error e => exact ih

/-- A connection gets through exactly when some backend accepts, and then to one that does. -/
theorem dial_reaches_iff {n : ℕ} (hperm : order.Perm (List.range n)) :
    (∃ i, (dial specs connect order).2 = some i ∧ i < n ∧ connect i = .ok ()) ↔
      ∃ i < n, connect i = .ok () := by
  constructor
  · rintro ⟨i, -, hi, hok⟩
    exact ⟨i, hi, hok⟩
  · rintro ⟨i, hi, hok⟩
    rw [dial_eq_find?]
    have hsome : (order.find? fun i => (connect i).isOk).isSome = true := by
      rw [List.find?_isSome]
      exact ⟨i, hperm.mem_iff.mpr (List.mem_range.mpr hi), by rw [hok]; rfl⟩
    obtain ⟨j, hj⟩ := Option.isSome_iff_exists.mp hsome
    refine ⟨j, hj, List.mem_range.mp (hperm.subset (List.mem_of_find?_eq_some hj)), ?_⟩
    have hisOk := List.find?_some hj
    cases hcj : connect j with
    | ok u => rfl
    | error e => rw [hcj] at hisOk; cases hisOk

/-- The orders in which connections dial, one after another, while the flags stay as they
    are. -/
def serve (backends : List Backend) (counter : ℕ) : List (ℕ → Except Text Unit) → List (List ℕ)
  | [] => []
  | connect :: rest =>
    dialOrder (backends.map Backend.healthy) counter ::
      serve backends (handle backends connect counter).1 rest

variable {backends : List Backend} {connects : List (ℕ → Except Text Unit)}

/-- As long as the counter does not wrap around, its values are consecutive. -/
theorem serve_eq (counter : ℕ) (h : counter + connects.length ≤ 2 ^ 64) :
    serve backends counter connects = (List.range connects.length).map fun k =>
      dialOrder (backends.map Backend.healthy) (counter + k) := by
  induction connects generalizing counter with
  | nil => rfl
  | cons connect rest ih =>
    rw [List.length_cons] at h
    have hrest : serve backends ((counter + 1) % 2 ^ 64) rest = serve backends (counter + 1) rest := by
      cases rest with
      | nil => rfl
      | cons connect' rest =>
        rw [List.length_cons] at h
        rw [Nat.mod_eq_of_lt (by omega)]
    rw [List.length_cons, List.range_succ_eq_map, List.map_cons, List.map_map]
    show dialOrder _ counter :: serve backends ((counter + 1) % 2 ^ 64) rest = _
    rw [hrest, ih (counter + 1) (by omega)]
    congr 1
    refine List.map_congr_left fun k _ => ?_
    show dialOrder _ (counter + 1 + k) = dialOrder _ (counter + (k + 1))
    rw [Nat.add_assoc, Nat.add_comm 1 k]

/-- Every healthy backend is the first choice of one of `n` connections. -/
theorem serve_fair (counter : ℕ) (hlen : connects.length = backends.length)
    (hcounter : counter + connects.length ≤ 2 ^ 64) {i : ℕ} (hi : i < backends.length)
    (hhealthy : isHealthy (backends.map Backend.healthy) i = true) :
    ∃ order ∈ serve backends counter connects, order.head? = some i := by
  obtain ⟨k, hk, hmod⟩ := exists_add_mod_eq hi counter
  rw [serve_eq counter hcounter, hlen]
  refine ⟨_, List.mem_map_of_mem (List.mem_range.mpr hk), ?_⟩
  unfold dialOrder
  rw [List.length_map, hmod]
  exact head?_pickOrder (by rwa [List.length_map]) hhealthy

/-- Everyone is tried, the healthy ones first: so a connection gets through whenever a backend
    accepts, and no healthy backend is left out of `n` connections with consecutive values of
    the counter. -/
theorem dialling (backends : List Backend) (hne : backends ≠ []) :
    (∀ c < backends.length, TriesAll (backends.map Backend.healthy) c
        (pickOrder (backends.map Backend.healthy) c)) ∧
      (∀ connect counter, (∃ i < backends.length, connect i = .ok ()) →
        ∃ i, (handle backends connect counter).2.2 = some i ∧ i < backends.length ∧
          connect i = .ok ()) ∧
      ∀ counter connects, connects.length = backends.length →
        counter + connects.length ≤ 2 ^ 64 → ∀ i < backends.length,
          isHealthy (backends.map Backend.healthy) i = true →
          ∃ order ∈ serve backends counter connects, order.head? = some i := by
  have hlen : 0 < backends.length := List.length_pos_iff.mpr hne
  have hspec : ∀ c < backends.length, TriesAll (backends.map Backend.healthy) c
      (pickOrder (backends.map Backend.healthy) c) := fun c hc =>
    pickOrder_spec (by rwa [List.length_map])
  refine ⟨hspec, fun connect counter haccepts => ?_, ?_⟩
  · have hperm := (hspec (counter % backends.length) (Nat.mod_lt _ hlen)).perm
    unfold handle dialOrder
    rw [List.length_map] at hperm ⊢
    exact (dial_reaches_iff hperm).mpr haccepts
  · intro counter connects hconnects hcounter i hi hhealthy
    exact serve_fair counter hconnects hcounter hi hhealthy

end connections

/-- Three backends, the second of them down. -/
def threeBackends : List Backend :=
  [⟨"10.100.0.2:6443".toList, true, 0⟩, ⟨"10.100.0.3:6443".toList, false, 3⟩,
    ⟨"10.100.0.4:6443".toList, true, 0⟩]

/-- Only the backend that is marked as down accepts: it is still reached, and among three
    connections each of the healthy ones is asked first. -/
theorem dialling_threeBackends :
    (∃ i, (handle threeBackends (fun i => if i = 1 then .ok () else .error "refused".toList) 5).2.2 =
        some i ∧ i < 3 ∧
        (if i = 1 then .ok () else .error "refused".toList : Except Text Unit) = .ok ()) ∧
      ∃ order ∈ serve threeBackends 4 [fun _ => .ok (), fun _ => .ok (), fun _ => .ok ()],
        order.head? = some 2 := by
  obtain ⟨-, hreach, hfair⟩ := dialling threeBackends (by decide)
  exact ⟨hreach _ 5 ⟨1, by decide, rfl⟩, hfair 4 _ rfl (by decide) 2 (by decide) rfl⟩

end Kubenyx.Lb
