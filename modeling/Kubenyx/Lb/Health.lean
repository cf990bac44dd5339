import Kubenyx.Lb.Args

/-!
# Health of the backends

Model of `health_loop` (kubenyx-lb lib.rs:273-324). A round probes every backend once. The flag
of a backend, its counter of failures and the local that remembers the first success are updated
one after another; the counter has 32 bits and wraps around, the value that is compared with the
threshold is the one before, incremented without wrapping. What a probe does on the network is
left open: a run is any sequence of outcomes.

* `invariant_state`: flag, counter and local as functions of the outcomes.
* `healthy_iff`: a backend is healthy if it has answered, and has since failed fewer times in a
  row than the threshold, for runs of any length.
* `emitted_changes`: the markers of a probe are the changes of the flag.
* `follows_policy`: all of it for a run.
-/

namespace Kubenyx.Lb

open Kubenyx.Common

/-! ## The loop -/

/-- `Backend` (lib.rs:156-164), without its address. -/
structure Backend where
  spec : Text
  healthy : Bool
  fails : ℕ
  deriving DecidableEq

/-- `resolve_backend` (lib.rs:166-185): a backend starts unhealthy. -/
def resolveBackend (spec : Text) : Backend := ⟨spec, false, 0⟩

/-- The markers on standard error; `ready` is also sent to the service manager. -/
inductive Event where
  | readmitted (spec : Text)
  | ready (spec : Text)
  | evicted (spec : Text) (fails : ℕ)
  deriving DecidableEq

/-- The line of a marker (lib.rs:303-316). -/
def Event.text : Event → Text
  | .readmitted spec => "KUBENYX-LB-READMIT ".toList ++ spec
  | .ready spec => "KUBENYX-LB-READY first healthy backend ".toList ++ spec
  | .evicted spec f =>
    "KUBENYX-LB-EVICT ".toList ++ spec ++ " after ".toList ++ decimal f ++ " failed probes".toList

variable {n : ℕ}

/-- The backends, and `ever_ready`. -/
structure LoopState (n : ℕ) where
  backends : Fin n → Backend
  everReady : Bool

/-- The outcome of the probe of a backend. -/
structure Probe (n : ℕ) where
  backend : Fin n
  ok : Bool
  deriving DecidableEq

/-- The branch of a probe that succeeds (lib.rs:301-310). -/
def onSuccess (everReady : Bool) (b : Backend) : Backend × List Event :=
  ({ b with healthy := true, fails := 0 },
    (if b.healthy then [] else [.readmitted b.spec]) ++ if everReady then [] else [.ready b.spec])

/-- The branch of a probe that fails (lib.rs:312-316): `fetch_add` wraps around and returns the
    value before, which is incremented without wrapping; the flag is only touched if that is at
    the threshold. -/
def onFailure (failThreshold : ℕ) (b : Backend) : Backend × List Event :=
  let f := min (b.fails + 1) (2 ^ 32 - 1)
  let b' := { b with fails := (b.fails + 1) % 2 ^ 32 }
  if failThreshold ≤ f then
    ({ b' with healthy := false }, if b.healthy then [.evicted b.spec f] else [])
  else (b', [])

/-- One probe (lib.rs:300-317). -/
def probeStep (failThreshold : ℕ) (s : LoopState n) (p : Probe n) : LoopState n × List Event :=
  let b := s.backends p.backend
  let r := if p.ok then onSuccess s.everReady b else onFailure failThreshold b
  (⟨Function.update s.backends p.backend r.1, s.everReady || p.ok⟩, r.2)

/-- The state before the loop. -/
def LoopState.init (specs : Fin n → Text) : LoopState n :=
  ⟨fun i => resolveBackend (specs i), false⟩

/-- The state after a sequence of probes, and the markers so far. -/
def run (failThreshold : ℕ) (specs : Fin n → Text) (probes : List (Probe n)) :
    LoopState n × List Event :=
  probes.foldl (fun acc p =>
    let r := probeStep failThreshold acc.1 p
    (r.1, acc.2 ++ r.2)) (.init specs, [])

def state (failThreshold : ℕ) (specs : Fin n → Text) (probes : List (Probe n)) : LoopState n :=
  (run failThreshold specs probes).1

def markers (failThreshold : ℕ) (specs : Fin n → Text) (probes : List (Probe n)) : List Event :=
  (run failThreshold specs probes).2

/-- The markers of a probe after others. -/
def emitted (failThreshold : ℕ) (specs : Fin n → Text) (before : List (Probe n)) (p : Probe n) :
    List Event :=
  (probeStep failThreshold (state failThreshold specs before) p).2

/-- The probes of a number of rounds, each over all backends in their order (lib.rs:299). -/
def schedule (rounds : List (Fin n → Bool)) : List (Probe n) :=
  rounds.flatMap fun ok => (List.finRange n).map fun i => ⟨i, ok i⟩

/-- `health_loop` (lib.rs:273-324) after a number of rounds. -/
def healthLoop (failThreshold : ℕ) (specs : Fin n → Text) (rounds : List (Fin n → Bool)) :
    LoopState n :=
  state failThreshold specs (schedule rounds)

/-! ## The policy -/

/-- The outcomes of one backend. -/
def outcomes (i : Fin n) (probes : List (Probe n)) : List Bool :=
  (probes.filter (·.backend = i)).map Probe.ok

/-- The number of failures since the last success. -/
def failuresSince (os : List Bool) : ℕ := (os.reverse.takeWhile (! ·)).length

/-- The policy: the backend has answered, and has since failed fewer times than the
    threshold. -/
def ShouldBeHealthy (failThreshold : ℕ) (os : List Bool) : Prop :=
  true ∈ os ∧ failuresSince os < failThreshold

section outcomes

variable {i : Fin n} {probes : List (Probe n)} {p : Probe n}

theorem outcomes_concat_self (probes : List (Probe n)) (p : Probe n) :
    outcomes p.backend (probes ++ [p]) = outcomes p.backend probes ++ [p.ok] := by
  unfold outcomes
  simp

theorem outcomes_concat_of_ne (h : i ≠ p.backend) :
    outcomes i (probes ++ [p]) = outcomes i probes := by
  unfold outcomes
  simp [h.symm]

theorem failuresSince_success (os : List Bool) : failuresSince (os ++ [true]) = 0 := by
  unfold failuresSince
  simp

theorem failuresSince_failure (os : List Bool) :
    failuresSince (os ++ [false]) = failuresSince os + 1 := by
  unfold failuresSince
  simp

end outcomes

/-! ## What a run keeps -/

section run

variable {t : ℕ} {specs : Fin n → Text} {probes : List (Probe n)} {p : Probe n} {i : Fin n}

theorem state_concat (t : ℕ) (specs : Fin n → Text) (probes : List (Probe n)) (p : Probe n) :
    state t specs (probes ++ [p]) = (probeStep t (state t specs probes) p).1 := by
  unfold state run
  rw [List.foldl_append]
  rfl

theorem markers_concat (t : ℕ) (specs : Fin n → Text) (probes : List (Probe n)) (p : Probe n) :
    markers t specs (probes ++ [p]) = markers t specs probes ++ emitted t specs probes p := by
  unfold markers emitted state run
  rw [List.foldl_append]
  rfl

/-- Only the backend that is probed changes. -/
theorem probeStep_of_ne (s : LoopState n) (h : i ≠ p.backend) :
    (probeStep t s p).1.backends i = s.backends i :=
  Function.update_of_ne h _ _

theorem probeStep_success (s : LoopState n) (h : p.ok = true) :
    (probeStep t s p).1.backends p.backend = (onSuccess s.everReady (s.backends p.backend)).1 := by
  unfold probeStep
  rw [h]
  exact Function.update_self ..

theorem probeStep_failure (s : LoopState n) (h : p.ok = false) :
    (probeStep t s p).1.backends p.backend = (onFailure t (s.backends p.backend)).1 := by
  unfold probeStep
  rw [h]
  exact Function.update_self ..

/-- A backend after its outcomes: the counter is the number of failures since the last success,
    modulo what it can hold, and the flag is the policy. -/
structure Follows (t : ℕ) (spec : Text) (os : List Bool) (b : Backend) : Prop where
  spec : b.spec = spec
  fails : b.fails = failuresSince os % 2 ^ 32
  healthy : b.healthy = true ↔ ShouldBeHealthy t os

variable {spec : Text} {os : List Bool} {b : Backend}

theorem Follows.onSuccess (h : Follows t spec os b) (ht : 1 ≤ t) (everReady : Bool) :
    Follows t spec (os ++ [true]) (onSuccess everReady b).1 where
  spec := h.spec
  fails := by
    rw [failuresSince_success]
    rfl
  healthy := by
    refine iff_of_true rfl ⟨by simp, ?_⟩
    rw [failuresSince_success]
    exact ht

theorem onFailure_of_le (h : t ≤ min (b.fails + 1) (2 ^ 32 - 1)) :
    onFailure t b = ({ b with healthy := false, fails := (b.fails + 1) % 2 ^ 32 },
      if b.healthy then [.evicted b.spec (min (b.fails + 1) (2 ^ 32 - 1))] else []) :=
  if_pos h

theorem onFailure_of_lt (h : ¬ t ≤ min (b.fails + 1) (2 ^ 32 - 1)) :
    onFailure t b = ({ b with fails := (b.fails + 1) % 2 ^ 32 }, []) :=
  if_neg h

/-- While the flag is set the counter has not come near its limit, and once it is clear only a
    success sets it: so the wrapped counter is never taken for a small one. -/
theorem Follows.onFailure (h : Follows t spec os b) (ht : t < 2 ^ 32) :
    Follows t spec (os ++ [false]) (onFailure t b).1 := by
  have hfails := h.fails
  have hcount : (b.fails + 1) % 2 ^ 32 = failuresSince (os ++ [false]) % 2 ^ 32 := by
    rw [failuresSince_failure]
    omega
  by_cases hf : t ≤ min (b.fails + 1) (2 ^ 32 - 1)
  · rw [onFailure_of_le hf]
    refine ⟨h.spec, hcount, iff_of_false Bool.false_ne_true ?_⟩
    rintro ⟨-, hfew⟩
    rw [failuresSince_failure] at hfew
    omega
  · rw [onFailure_of_lt hf]
    refine ⟨h.spec, hcount, h.healthy.trans ?_⟩
    unfold ShouldBeHealthy
    rw [failuresSince_failure, List.mem_append, List.mem_singleton]
    simp only [reduceCtorEq, or_false]
    refine and_congr_right fun _ => ?_
    omega

/-- A backend is evicted when its failures reach the threshold, neither before nor after. -/
theorem Follows.threshold_eq (h : Follows t spec os b) (ht : t < 2 ^ 32) (hb : b.healthy = true)
    (hf : t ≤ min (b.fails + 1) (2 ^ 32 - 1)) : min (b.fails + 1) (2 ^ 32 - 1) = t := by
  have hfew := (h.healthy.mp hb).2
  have hfails := h.fails
  omega

/-- The local of the loop remembers whether any probe has succeeded. -/
structure Invariant (t : ℕ) (specs : Fin n → Text) (probes : List (Probe n)) (s : LoopState n) :
    Prop where
  backends : ∀ i, Follows t (specs i) (outcomes i probes) (s.backends i)
  everReady : s.everReady = true ↔ ∃ q ∈ probes, q.ok = true

theorem invariant_init : Invariant t specs [] (.init specs) where
  backends i := ⟨rfl, rfl, iff_of_false Bool.false_ne_true fun h => absurd h.1 List.not_mem_nil⟩
  everReady := iff_of_false Bool.false_ne_true (by simp)

theorem Invariant.step {s : LoopState n} (h : Invariant t specs probes s) (ht : 1 ≤ t)
    (ht' : t < 2 ^ 32) (p : Probe n) :
    Invariant t specs (probes ++ [p]) (probeStep t s p).1 where
  backends i := by
    by_cases hi : i = p.backend
    · subst hi
      rw [outcomes_concat_self]
      cases hok : p.ok with
      | true =>
        rw [probeStep_success s hok]
        exact (h.backends p.backend).onSuccess ht s.everReady
      | false =>
        rw [probeStep_failure s hok]
        exact (h.backends p.backend).onFailure ht'
    · rw [outcomes_concat_of_ne hi, probeStep_of_ne s hi]
      exact h.backends i
  everReady := by
    show (s.everReady || p.ok) = true ↔ _
    rw [Bool.or_eq_true, h.everReady]
    simp [or_and_right, exists_or]

/-- Flag, counter and local after any sequence of probes. -/
theorem invariant_state (ht : 1 ≤ t) (ht' : t < 2 ^ 32) (specs : Fin n → Text)
    (probes : List (Probe n)) : Invariant t specs probes (state t specs probes) := by
  induction probes using List.reverseRecOn with
  | nil => exact invariant_init
  | append_singleton probes p ih =>
    rw [state_concat]
    exact ih.step ht ht' p

/-- A backend is healthy if it has answered, and has since failed fewer times in a row than the
    threshold. -/
theorem healthy_iff (ht : 1 ≤ t) (ht' : t < 2 ^ 32) :
    ((state t specs probes).backends i).healthy = true ↔ ShouldBeHealthy t (outcomes i probes) :=
  ((invariant_state ht ht' specs probes).backends i).healthy

/-- In the loop every backend has one outcome a round. -/
theorem outcomes_schedule (rounds : List (Fin n → Bool)) :
    outcomes i (schedule rounds) = rounds.map fun ok => ok i := by
  have hround : ∀ ok : Fin n → Bool,
      outcomes i ((List.finRange n).map fun j => ⟨j, ok j⟩) = [ok i] := by
    intro ok
    unfold outcomes
    rw [List.filter_map, List.map_map]
    show (List.map ok ((List.finRange n).filter fun j => j = i)) = [ok i]
    rw [List.filter_eq, List.count_eq_one_of_mem (List.nodup_finRange n) (List.mem_finRange i)]
    rfl
  induction rounds with
  | nil => rfl
  | cons ok rounds ih =>
    have hsplit : outcomes i (schedule (ok :: rounds)) =
        outcomes i ((List.finRange n).map fun j => ⟨j, ok j⟩) ++ outcomes i (schedule rounds) := by
      unfold outcomes schedule
      rw [List.flatMap_cons, List.filter_append, List.map_append]
    rw [hsplit, hround, ih]
    rfl

theorem healthLoop_healthy_iff (ht : 1 ≤ t) (ht' : t < 2 ^ 32) (rounds : List (Fin n → Bool)) :
    ((healthLoop t specs rounds).backends i).healthy = true ↔
      ShouldBeHealthy t (rounds.map fun ok => ok i) := by
  rw [← outcomes_schedule]
  exact healthy_iff ht ht'

/-! ## Markers -/

/-- The marker of a change of the flag; an eviction names the threshold. -/
def changes (t : ℕ) (before after : Backend) : List Event :=
  if before.healthy = false ∧ after.healthy = true then [.readmitted before.spec]
  else if before.healthy = true ∧ after.healthy = false then [.evicted before.spec t]
  else []

theorem onSuccess_changes (everReady : Bool) (b : Backend) :
    (onSuccess everReady b).2 = changes t b (onSuccess everReady b).1 ++
      if everReady then [] else [.ready b.spec] := by
  unfold onSuccess changes
  cases b.healthy <;> simp

theorem Follows.onFailure_changes (h : Follows t spec os b) (ht : t < 2 ^ 32) :
    (Lb.onFailure t b).2 = changes t b (Lb.onFailure t b).1 := by
  by_cases hf : t ≤ min (b.fails + 1) (2 ^ 32 - 1)
  · rw [onFailure_of_le hf]
    unfold changes
    cases hb : b.healthy with
    | true =>
      rw [h.threshold_eq ht hb hf]
      simp
    | false => simp
  · rw [onFailure_of_lt hf]
    unfold changes
    cases b.healthy <;> simp

/-- A probe emits the change of the flag of its backend, and after it the marker of the first
    success. -/
theorem emitted_changes (ht : 1 ≤ t) (ht' : t < 2 ^ 32) (specs : Fin n → Text)
    (before : List (Probe n)) (p : Probe n) :
    emitted t specs before p =
      changes t ((state t specs before).backends p.backend)
          ((state t specs (before ++ [p])).backends p.backend) ++
        if p.ok = true ∧ ∀ q ∈ before, q.ok = false then [.ready (specs p.backend)] else [] := by
  have hinv := invariant_state ht ht' specs before
  have hready : (∀ q ∈ before, q.ok = false) ↔ (state t specs before).everReady = false := by
    rw [← Bool.not_eq_true, hinv.everReady]
    simp
  simp only [hready]
  rw [state_concat]
  unfold emitted
  generalize state t specs before = s at hinv
  have hspec := (hinv.backends p.backend).spec
  cases hok : p.ok with
  | true =>
    rw [probeStep_success s hok, ← hspec]
    unfold probeStep
    rw [hok]
    show (onSuccess s.everReady (s.backends p.backend)).2 = _
    rw [onSuccess_changes (t := t)]
    cases s.everReady <;> simp
  | false =>
    rw [probeStep_failure s hok]
    unfold probeStep
    rw [hok]
    show (onFailure t (s.backends p.backend)).2 = _
    rw [(hinv.backends p.backend).onFailure_changes ht']
    simp

/-- The marker of the first success. -/
def Event.isReady : Event → Bool
  | .ready _ => true
  | _ => false

theorem countP_changes (before after : Backend) : (changes t before after).countP Event.isReady = 0 := by
  unfold changes
  split_ifs <;> rfl

/-- It is emitted once in a run in which a probe succeeds. -/
theorem countP_markers (ht : 1 ≤ t) (ht' : t < 2 ^ 32) (specs : Fin n → Text)
    (probes : List (Probe n)) :
    (markers t specs probes).countP Event.isReady = if ∃ q ∈ probes, q.ok = true then 1 else 0 := by
  induction probes using List.reverseRecOn with
  | nil => rfl
  | append_singleton probes p ih =>
    rw [markers_concat, List.countP_append, ih, emitted_changes ht ht', List.countP_append,
      countP_changes, Nat.zero_add]
    have hsplit : (∃ q ∈ probes ++ [p], q.ok = true) ↔
        (∃ q ∈ probes, q.ok = true) ∨ p.ok = true := by
      simp [or_and_right, exists_or]
    have hnone : (∀ q ∈ probes, q.ok = false) ↔ ¬ ∃ q ∈ probes, q.ok = true := by simp
    simp only [hsplit, hnone]
    by_cases hbefore : ∃ q ∈ probes, q.ok = true
    · simp [hbefore]
    · cases p.ok <;> simp [hbefore, Event.isReady]

/-- The policy, for every run: who is healthy after it, what each probe of it emits, and that
    readiness is notified once, at the first success. -/
theorem follows_policy (t : ℕ) (ht : 1 ≤ t) (ht' : t < 2 ^ 32) (specs : Fin n → Text)
    (probes : List (Probe n)) :
    (∀ i, ((state t specs probes).backends i).healthy = true ↔
        true ∈ outcomes i probes ∧ failuresSince (outcomes i probes) < t) ∧
      (∀ before p after, probes = before ++ p :: after →
        emitted t specs before p =
            changes t ((state t specs before).backends p.backend)
                ((state t specs (before ++ [p])).backends p.backend) ++
              (if p.ok = true ∧ ∀ q ∈ before, q.ok = false then [.ready (specs p.backend)]
                else []) ∧
          ∀ j, j ≠ p.backend → (state t specs (before ++ [p])).backends j =
            (state t specs before).backends j) ∧
      (markers t specs probes).countP Event.isReady =
        if ∃ q ∈ probes, q.ok = true then 1 else 0 := by
  refine ⟨fun i => healthy_iff ht ht', fun before p after _ => ⟨?_, fun j hj => ?_⟩, ?_⟩
  · exact emitted_changes ht ht' specs before p
  · rw [state_concat]
    exact probeStep_of_ne _ hj
  · exact countP_markers ht ht' specs probes

end run

def twoSpecs : Fin 2 → Text := fun i => ["10.100.0.2:6443".toList, "10.100.0.3:6443".toList].get i

/-- The second backend answers first; the first one answers once and fails twice. -/
def twoProbes : List (Probe 2) := [⟨0, false⟩, ⟨1, true⟩, ⟨0, true⟩, ⟨0, false⟩, ⟨0, false⟩]

/-- With a threshold of two the first backend is out at the end, and ready was notified. -/
theorem follows_policy_twoProbes :
    ((state 2 twoSpecs twoProbes).backends 0).healthy ≠ true ∧
      ((state 2 twoSpecs twoProbes).backends 1).healthy = true ∧
      (markers 2 twoSpecs twoProbes).countP Event.isReady = 1 := by
  obtain ⟨hhealthy, -, hready⟩ := follows_policy 2 (by decide) (by decide) twoSpecs twoProbes
  refine ⟨fun h => absurd ((hhealthy 0).mp h).2 (by decide), (hhealthy 1).mpr (by decide), ?_⟩
  exact hready.trans (by decide)

end Kubenyx.Lb
