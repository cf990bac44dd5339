import Kubenyx.Common.Machine
import Kubenyx.Common.Encoding

/-!
# Pausing, snapshotting, resuming

Model of `take --sock` and `mesh-take` (lib.rs:1134-1198, lib.rs:1690-1787) as far as the
running state of the VMs goes. Both talk to the API socket of every VM. A call that fails in
any way makes the command die, and `die` only kills the VMMs that the command spawned itself;
neither of the two commands spawns any.

A call that the client sees fail may still have taken effect: an answer is what the client
sees together with what happened to the VM.

* `takeAttached_running_iff`: when a failed `take --sock` leaves its VM running.
* `meshTake_running_iff`: when a failed `mesh-take` leaves the VMs running, in every
  interleaving of its snapshot threads.
* `failed_take_leaves_running_iff`: the two together.
-/

namespace Kubenyx.Snap

open Kubenyx.Common

/-! ## API calls -/

/-- What the client sees of a call of `api` (lib.rs:126-174). -/
inductive ApiOutcome where
  | connectError (e : Text)
  | writeError (e : Text)
  | readError (e : Text)
  /-- The response has no status. -/
  | badResponse (headers : Text)
  | status (code : ℕ) (resp : Text)
  deriving DecidableEq

/-- The call returned with a status that `api_expect` accepts. -/
def ApiOutcome.ok : ApiOutcome → Bool
  | .status code _ => 200 ≤ code && code < 300
  | _ => false

/-- `api_expect` (lib.rs:176-181), with the messages of `api`: the message that it dies with. -/
def apiExpect (sock method path : Text) (o : ApiOutcome) : Except Text Unit :=
  match o with
  | .connectError e => .error ("connect ".toList ++ sock ++ ": ".toList ++ e)
  | .writeError e => .error ("API write: ".toList ++ e)
  | .readError e => .error ("API read: ".toList ++ e)
  | .badResponse headers => .error ("bad API response: ".toList ++ headers.take 120)
  | .status code resp =>
    if 200 ≤ code ∧ code < 300 then .ok ()
    else .error (method ++ [' '] ++ path ++ " -> ".toList ++ (toString code).toList ++
      ": ".toList ++ resp.take 300)

/-- An answer to a call: what the client sees, and whether the VM did what it was asked. A
    call that is answered with success took effect, and one that never connected did not. -/
structure Answer where
  outcome : ApiOutcome
  applied : Bool
  applied_of_ok : outcome.ok = true → applied = true
  not_applied_of_refused : ∀ e, outcome = .connectError e → applied = false

theorem apiExpect_isOk_iff (sock method path : Text) (o : ApiOutcome) :
    apiExpect sock method path o = .ok () ↔ o.ok = true := by
  cases o with
  | status code resp =>
    by_cases h : 200 ≤ code ∧ code < 300
    · simp [apiExpect, ApiOutcome.ok, h]
    · simp only [apiExpect, if_neg h, reduceCtorEq, false_iff, ApiOutcome.ok, Bool.and_eq_true,
        decide_eq_true_eq]
      exact h
  | _ => simp [apiExpect, ApiOutcome.ok]

/-- What the VM is doing. -/
inductive Vm where
  | running
  | paused
  | killed
  deriving DecidableEq

/-- The VM after a call of `PATCH /vm` with the state `Paused`. -/
def Vm.pause (vm : Vm) (a : Answer) : Vm := if a.applied then .paused else vm

/-- The VM after a call of `PATCH /vm` with the state `Resumed`. -/
def Vm.resume (vm : Vm) (a : Answer) : Vm := if a.applied then .running else vm

/-! ## `take --sock` -/

/-- What `cmd_take_attached` meets: the answers to its calls, and the message it dies with in
    the steps between them, if one of these fails. -/
structure AttachedRun where
  sock : Text
  /-- The socket, the output directory (lib.rs:1135-1147). -/
  prepare : Option Text
  pause : Answer
  create : Answer
  resume : Answer
  /-- The VMM's config and `/proc/cpuinfo` (lib.rs:1165-1175). -/
  identify : Option Text
  /-- `write manifest` (lib.rs:1188-1189). -/
  writeManifest : Option Text

/-- A step that may die with a message. -/
def orDie (failure : Option Text) : Except Text Unit :=
  match failure with
  | some msg => .error msg
  | none => .ok ()

/-- `cmd_take_attached` (lib.rs:1134-1198) on a running VM: its result, and the VM after it. -/
def takeAttached (e : AttachedRun) : Except Text Unit × Vm :=
  match orDie e.prepare with
  | .error msg => (.error msg, .running)
  | .ok () =>
    let vm := Vm.running.pause e.pause
    match apiExpect e.sock "PATCH".toList "/vm".toList e.pause.outcome with
    | .error msg => (.error msg, vm)
    | .ok () =>
      match apiExpect e.sock "PUT".toList "/snapshot/create".toList e.create.outcome with
      | .error msg => (.error msg, vm)
      | .ok () =>
        let vm := vm.resume e.resume
        match apiExpect e.sock "PATCH".toList "/vm".toList e.resume.outcome with
        | .error msg => (.error msg, vm)
        | .ok () =>
          match orDie e.identify with
          | .error msg => (.error msg, vm)
          | .ok () => (orDie e.writeManifest, vm)

/-- The command failed. -/
def Failed (r : Except Text Unit) : Prop := r ≠ .ok ()

/-- Where the command does not reach the pause, or the pause has no effect, or the pause and
    the snapshot succeed and the resume takes effect. -/
def AttachedRun.Restores (e : AttachedRun) : Prop :=
  e.prepare ≠ none ∨ e.pause.applied = false ∨
    e.pause.outcome.ok = true ∧ e.create.outcome.ok = true ∧ e.resume.applied = true

theorem apiExpect_error {sock method path msg : Text} {o : ApiOutcome}
    (h : apiExpect sock method path o = .error msg) : o.ok = false := by
  have hnot : ¬ o.ok = true := by
    rw [← apiExpect_isOk_iff sock method path o, h]
    simp
  exact Bool.eq_false_iff.mpr hnot

/-- A failed `take --sock` leaves its VM running exactly in the runs that restore it. -/
theorem takeAttached_running_iff (e : AttachedRun) :
    (Failed (takeAttached e).1 → (takeAttached e).2 = .running) ↔ e.Restores := by
  unfold takeAttached AttachedRun.Restores
  cases hprep : e.prepare with
  | some msg => simp [orDie]
  | none =>
    simp only [orDie, ne_eq, not_true_eq_false, false_or]
    cases hpause : apiExpect e.sock "PATCH".toList "/vm".toList e.pause.outcome with
    | error msg =>
      have hok := apiExpect_error hpause
      cases happ : e.pause.applied <;> simp [Failed, Vm.pause, happ, hok]
    | ok _ =>
      have hok := (apiExpect_isOk_iff _ _ _ _).mp hpause
      have happ := e.pause.applied_of_ok hok
      simp only [hok, happ, Vm.pause, if_true, true_and, Bool.true_eq_false, false_or]
      cases hcreate : apiExpect e.sock "PUT".toList "/snapshot/create".toList e.create.outcome with
      | error msg =>
        have hfail := apiExpect_error hcreate
        simp [Failed, hfail]
      | ok _ =>
        have hcok := (apiExpect_isOk_iff _ _ _ _).mp hcreate
        simp only [hcok, true_and]
        cases hresume : apiExpect e.sock "PATCH".toList "/vm".toList e.resume.outcome with
        | error msg => cases hrapp : e.resume.applied <;> simp [Failed, Vm.resume, hrapp]
        | ok _ =>
          have hrapp := e.resume.applied_of_ok ((apiExpect_isOk_iff _ _ _ _).mp hresume)
          cases e.identify <;> simp [Vm.resume, hrapp]

/-! ## `mesh-take` -/

section mesh

variable {N : Type} [DecidableEq N]

/-- Where `cmd_mesh_take` stands. -/
inductive MeshPhase (N : Type) where
  /-- Before the first pause (lib.rs:1691-1708). -/
  | preparing
  /-- These nodes are still to be paused (lib.rs:1714-1721). -/
  | pausing (todo : List N)
  /-- The snapshot threads run (lib.rs:1730-1756): those that have still to make their
      directory, and those that have made it. -/
  | creating (mkdirs creates : List N)
  /-- All threads are joined (lib.rs:1763-1779). -/
  | recording
  /-- The manifest is written (lib.rs:1785). -/
  | killing
  | done
  | died
  deriving DecidableEq

/-- The VMs and the command. -/
structure MeshState (N : Type) where
  vm : N → Vm
  phase : MeshPhase N

inductive MeshAct (N : Type) where
  /-- What comes before the first pause succeeds or dies. -/
  | prepare (ok : Bool)
  /-- The next node answers the pause. -/
  | pause (a : Answer)
  /-- The thread of a node makes its directory. -/
  | mkdir (n : N) (ok : Bool)
  /-- The thread of a node gets the answer to its snapshot. -/
  | create (n : N) (a : Answer)
  /-- The command goes on: the last node is paused, or the last thread is joined. -/
  | proceed
  /-- The identity and the manifest. -/
  | record (ok : Bool)
  /-- `kill_mesh_vmms` finds and kills these VMMs (lib.rs:1662-1688). -/
  | kill (found : List N)

/-- The action makes the command die. -/
def MeshAct.fails : MeshAct N → Bool
  | .prepare ok => !ok
  | .pause a => !a.outcome.ok
  | .mkdir _ ok => !ok
  | .create _ a => !a.outcome.ok
  | .proceed => false
  | .record ok => !ok
  | .kill _ => false

/-- The action pauses a VM. -/
def MeshAct.pauses : MeshAct N → Bool
  | .pause a => a.applied
  | _ => false

/-- `cmd_mesh_take` (lib.rs:1690-1787) on the given nodes; a thread that dies takes the whole
    process with it. -/
def meshStep (nodes : List N) (s : MeshState N) (act : MeshAct N) : Option (MeshState N) :=
  let continueTo (phase : MeshPhase N) : MeshPhase N := if act.fails then .died else phase
  match s.phase, act with
  | .preparing, .prepare _ => some { s with phase := continueTo (.pausing nodes) }
  | .pausing (n :: todo), .pause a =>
    some { vm := Function.update s.vm n ((s.vm n).pause a), phase := continueTo (.pausing todo) }
  | .pausing [], .proceed => some { s with phase := .creating nodes [] }
  | .creating mkdirs creates, .mkdir n _ =>
    if n ∈ mkdirs then
      some { s with phase := continueTo (.creating (mkdirs.erase n) (n :: creates)) }
    else none
  | .creating mkdirs creates, .create n _ =>
    if n ∈ creates then some { s with phase := continueTo (.creating mkdirs (creates.erase n)) }
    else none
  | .creating [] [], .proceed => some { s with phase := .recording }
  | .recording, .record _ => some { s with phase := continueTo .killing }
  | .killing, .kill found =>
    some { vm := fun n => if n ∈ found then .killed else s.vm n, phase := .done }
  | _, _ => none

/-- The command has not started, and all VMs run. -/
def MeshState.init : MeshState N := ⟨fun _ => .running, .preparing⟩

variable {nodes : List N} {s s' : MeshState N} {act : MeshAct N}

/-- What a step can do: the last one kills; any other dies if it fails and goes on if not, and
    pauses one VM or touches none. -/
def StepEffect (s : MeshState N) (act : MeshAct N) (s' : MeshState N) : Prop :=
  s.phase ≠ .died ∧ s.phase ≠ .done ∧
    ((s'.phase = .done ∧ act.fails = false) ∨
      ((s'.phase = .died ↔ act.fails = true) ∧
        ((∃ n a, act = .pause a ∧ s'.vm = Function.update s.vm n ((s.vm n).pause a)) ∨
          act.pauses = false ∧ s'.vm = s.vm)))

/-- A step that touches no VM. -/
theorem stepEffect_quiet {phase : MeshPhase N} (hdied : s.phase ≠ .died) (hdone : s.phase ≠ .done)
    (hphase : phase ≠ .died) (hquiet : act.pauses = false)
    (h : some { s with phase := if act.fails then .died else phase } = some s') :
    StepEffect s act s' := by
  obtain rfl := Option.some.inj h
  refine ⟨hdied, hdone, Or.inr ⟨?_, Or.inr ⟨hquiet, rfl⟩⟩⟩
  cases act.fails <;> simp [hphase]

theorem meshStep_effect (h : meshStep nodes s act = some s') : StepEffect s act s' := by
  unfold meshStep at h
  dsimp only at h
  split at h
  case h_1 hphase => -- preparing
    exact stepEffect_quiet (by simp [hphase]) (by simp [hphase]) (by simp) rfl h
  case h_2 n todo a hphase => -- a node is paused
    obtain rfl := Option.some.inj h
    refine ⟨by simp [hphase], by simp [hphase], Or.inr ⟨?_, Or.inl ⟨n, a, rfl, rfl⟩⟩⟩
    cases (MeshAct.pause a : MeshAct N).fails <;> simp
  case h_3 hphase =>
    exact stepEffect_quiet (by simp [hphase]) (by simp [hphase]) (by simp) rfl h
  case h_4 hphase => -- a thread makes its directory
    split at h
    · exact stepEffect_quiet (by simp [hphase]) (by simp [hphase]) (by simp) rfl h
    · exact absurd h (by simp)
  case h_5 hphase => -- a thread gets its answer
    split at h
    · exact stepEffect_quiet (by simp [hphase]) (by simp [hphase]) (by simp) rfl h
    · exact absurd h (by simp)
  case h_6 hphase =>
    exact stepEffect_quiet (by simp [hphase]) (by simp [hphase]) (by simp) rfl h
  case h_7 hphase =>
    exact stepEffect_quiet (by simp [hphase]) (by simp [hphase]) (by simp) rfl h
  case h_8 hphase => -- the kill
    obtain rfl := Option.some.inj h
    exact ⟨by simp [hphase], by simp [hphase], Or.inl ⟨rfl, rfl⟩⟩
  case h_9 => exact absurd h (by simp)

/-- A command that has died or is done makes no step. -/
theorem exec_of_over {acts : List (MeshAct N)} (hover : s.phase = .died ∨ s.phase = .done)
    (h : exec (meshStep nodes) s acts = some s') : acts = [] ∧ s' = s := by
  cases acts with
  | nil => exact ⟨rfl, (Option.some.inj h).symm⟩
  | cons act acts =>
    obtain ⟨t, ht, -⟩ := exec_cons_iff.mp h
    obtain ⟨hdied, hdone, -⟩ := meshStep_effect ht
    exact absurd hover (by simp [hdied, hdone])

/-- The command dies in a run exactly if one of the steps fails. -/
theorem died_iff {acts : List (MeshAct N)} (hs : s.phase ≠ .died)
    (h : exec (meshStep nodes) s acts = some s') :
    s'.phase = .died ↔ ∃ act ∈ acts, act.fails = true := by
  induction acts generalizing s with
  | nil =>
    obtain rfl := Option.some.inj h
    simp [hs]
  | cons act acts ih =>
    obtain ⟨t, ht, hrest⟩ := exec_cons_iff.mp h
    obtain ⟨-, -, ⟨hdone, hfails⟩ | ⟨hdied, -⟩⟩ := meshStep_effect ht
    · obtain ⟨rfl, rfl⟩ := exec_of_over (Or.inr hdone) hrest
      simp [hdone, hfails]
    · by_cases hfails : act.fails = true
      · obtain ⟨rfl, rfl⟩ := exec_of_over (Or.inl (hdied.mpr hfails)) hrest
        simp [hdied, hfails]
      · rw [ih (fun hd => hfails (hdied.mp hd)) hrest]
        simp [hfails]

/-- A step short of the kill leaves all VMs running exactly if they ran and it pauses none. -/
theorem running_of_step (h : meshStep nodes s act = some s') (hdone : s'.phase ≠ .done) :
    (∀ n, s'.vm n = .running) ↔ (∀ n, s.vm n = .running) ∧ act.pauses = false := by
  obtain ⟨-, -, ⟨hd, -⟩ | ⟨-, ⟨n, a, rfl, hvm⟩ | ⟨hquiet, hvm⟩⟩⟩ := meshStep_effect h
  · exact absurd hd hdone
  · rw [hvm]
    cases happ : a.applied with
    | true =>
      refine iff_of_false (fun hall => ?_) (by simp [MeshAct.pauses, happ])
      simpa [Vm.pause, happ] using hall n
    | false => simp [Vm.pause, happ, MeshAct.pauses]
  · rw [hvm]
    simp [hquiet]

/-- Where a command dies, all VMs run exactly if they all did before and none was paused. -/
theorem died_running_iff {acts : List (MeshAct N)} (h : exec (meshStep nodes) s acts = some s')
    (hdied : s'.phase = .died) :
    (∀ n, s'.vm n = .running) ↔
      (∀ n, s.vm n = .running) ∧ ∀ act ∈ acts, act.pauses = false := by
  induction acts generalizing s with
  | nil =>
    obtain rfl := Option.some.inj h
    simp
  | cons act acts ih =>
    obtain ⟨t, ht, hrest⟩ := exec_cons_iff.mp h
    have hgoes : t.phase ≠ .done := by
      intro hdone
      obtain ⟨-, rfl⟩ := exec_of_over (Or.inr hdone) hrest
      simp [hdone] at hdied
    rw [ih hrest, running_of_step ht hgoes, List.forall_mem_cons, and_assoc]

/-- `mesh-take` resumes no VM: where it fails, all VMs run exactly if no pause took effect. -/
theorem meshTake_running_iff {acts : List (MeshAct N)}
    (h : exec (meshStep nodes) MeshState.init acts = some s) :
    (s.phase = .died → ∀ n, s.vm n = .running) ↔
      (∀ act ∈ acts, act.fails = false) ∨ ∀ act ∈ acts, act.pauses = false := by
  have hdied := died_iff (s := MeshState.init) (by simp [MeshState.init]) h
  by_cases hd : s.phase = .died
  · have hfail : ¬ ∀ act ∈ acts, act.fails = false := by
      obtain ⟨act, hact, hfails⟩ := hdied.mp hd
      exact fun hall => absurd (hall act hact) (by simp [hfails])
    simp only [hd, true_implies, hfail, false_or, died_running_iff h hd]
    exact and_iff_right fun _ => rfl
  · refine iff_of_true (fun h => absurd h hd) (Or.inl fun act hact => ?_)
    by_contra hfails
    exact hd (hdied.mpr ⟨act, hact, Bool.eq_true_of_not_eq_false hfails⟩)

/-- A snapshot command that fails leaves the VMs running in these runs exactly. `take --sock`:
    the pause is not reached or has no effect, or pause and snapshot succeed and the resume takes
    effect. `mesh-take`, in every interleaving of its threads: no pause took effect. -/
theorem failed_take_leaves_running_iff (N : Type) [DecidableEq N] :
    (∀ e : AttachedRun,
      (Failed (takeAttached e).1 → (takeAttached e).2 = .running) ↔ e.Restores) ∧
    ∀ (nodes : List N) (acts : List (MeshAct N)) (s : MeshState N),
      exec (meshStep nodes) MeshState.init acts = some s →
        ((s.phase = .died → ∀ n, s.vm n = .running) ↔
          (∀ act ∈ acts, act.fails = false) ∨ ∀ act ∈ acts, act.pauses = false) :=
  ⟨takeAttached_running_iff, fun _ _ _ h => meshTake_running_iff h⟩

end mesh

/-- `204 No Content`. -/
def Answer.noContent : Answer where
  outcome := .status 204 []
  applied := true
  applied_of_ok _ := rfl
  not_applied_of_refused e h := by simp at h

/-- `400 Bad Request`. -/
def Answer.badRequest : Answer where
  outcome := .status 400 "snapshot: no space left on device".toList
  applied := false
  applied_of_ok h := absurd h (by simp [ApiOutcome.ok])
  not_applied_of_refused e h := rfl

/-- A take whose manifest cannot be written leaves the VM running, and so does a `mesh-take`
    whose first pause is refused. -/
theorem failed_take_leaves_running_iff_late :
    (takeAttached ⟨"kubenyx.sock".toList, none, .noContent, .noContent, .noContent, none,
        some "write manifest: No space left on device".toList⟩).2 = .running ∧
      ∀ n : Bool, (⟨fun _ => .running, .died⟩ : MeshState Bool).vm n = .running := by
  obtain ⟨hattached, hmesh⟩ := failed_take_leaves_running_iff Bool
  refine ⟨(hattached _).mpr (Or.inr (Or.inr ⟨rfl, rfl, rfl⟩)) (by simp [Failed, takeAttached, orDie,
    apiExpect, Answer.noContent]), ?_⟩
  have hrun : exec (meshStep [false, true]) MeshState.init
      [.prepare true, .pause .badRequest] = some ⟨fun _ => .running, .died⟩ := by
    simp [exec, meshStep, MeshState.init, MeshAct.fails, Answer.badRequest, ApiOutcome.ok, Vm.pause]
  exact (hmesh _ _ _ hrun).mpr (Or.inr (by simp [MeshAct.pauses, Answer.badRequest])) rfl

/-- The snapshot itself fails, on one VM and on the first of two: they stay paused. -/
theorem failed_take_leaves_paused :
    (¬ ∀ e : AttachedRun, Failed (takeAttached e).1 → (takeAttached e).2 = .running) ∧
    ¬ ∀ (nodes : List Bool) (acts : List (MeshAct Bool)) (s : MeshState Bool),
      exec (meshStep nodes) MeshState.init acts = some s → s.phase = .died →
        ∀ n, s.vm n = .running := by
  constructor
  · intro h
    have hvm := h ⟨"kubenyx.sock".toList, none, .noContent, .badRequest, .noContent, none, none⟩
      (by simp [Failed, takeAttached, orDie, apiExpect, Answer.noContent, Answer.badRequest])
    simp [takeAttached, orDie, apiExpect, Answer.noContent, Answer.badRequest, Vm.pause] at hvm
  · intro h
    have hrun : exec (meshStep [false, true]) MeshState.init
        [.prepare true, .pause .noContent, .pause .noContent, .proceed, .mkdir false true,
          .create false .badRequest] =
        some ⟨Function.update (Function.update (fun _ => .running) false .paused) true .paused,
          .died⟩ := by
      simp [exec, meshStep, MeshState.init, MeshAct.fails, Answer.badRequest, Answer.noContent,
        ApiOutcome.ok, Vm.pause]
    have hvm := h _ _ _ hrun rfl true
    simp at hvm

end Kubenyx.Snap
