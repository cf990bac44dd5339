import Kubenyx.Snap.Take

/-!
# The cut that a mesh snapshot takes

`mesh-take` (lib.rs:1690-1787) pauses every VM before it snapshots any ("this is the consistent
cut", lib.rs:1711-1713). Here the guests run beside the command: a guest takes steps of its own
while its VM runs, in any order with the steps of the command, and a snapshot holds the memory
that the guest has when the call takes effect.

* `worldStep_frozen`: from the last pause on, no guest of the mesh moves.
* `meshTake_cut`: the snapshots of a mesh, taken together, are the state of all guests at one
  moment of the run, before the first of them was taken, and no VM is killed without all of them.
-/

namespace Kubenyx.Snap

open Kubenyx.Common

variable {N G : Type} [DecidableEq N]

/-! ## The guests -/

/-- The command and the VMs, the memory of the guests, and what is in the snapshots. -/
structure MeshWorld (N G : Type) where
  mesh : MeshState N
  guest : N → G
  image : N → Option G

/-- A step of the command, or of a guest: what it does by itself, and what it does with what it
    gets from the others. -/
inductive WorldAct (N G : Type) where
  | mesh (act : MeshAct N)
  | guest (n : N) (memory : G)

/-- The snapshots after a step of the command (lib.rs:1736-1748): the file has the memory of the
    guest as the call finds it. -/
def MeshAct.images (act : MeshAct N) (guest : N → G) (image : N → Option G) : N → Option G :=
  match act with
  | .create n a => if a.applied then Function.update image n (some (guest n)) else image
  | _ => image

/-- A step of the command or of a guest; a guest takes one only while its VM runs. -/
def worldStep (nodes : List N) (w : MeshWorld N G) : WorldAct N G → Option (MeshWorld N G)
  | .mesh act =>
    (meshStep nodes w.mesh act).map fun mesh =>
      { w with mesh := mesh, image := act.images w.guest w.image }
  | .guest n memory =>
    if w.mesh.vm n = .running then some { w with guest := Function.update w.guest n memory }
    else none

/-- The command has not started: all VMs run, and nothing is written. -/
def MeshWorld.init (guest : N → G) : MeshWorld N G := ⟨MeshState.init, guest, fun _ => none⟩

/-- The action gets the answer to a snapshot. -/
def WorldAct.IsCreate : WorldAct N G → Prop
  | .mesh (.create _ _) => True
  | _ => False

variable {nodes : List N} {w w' : MeshWorld N G} {act : WorldAct N G}

theorem worldStep_mesh_iff {act : MeshAct N} :
    worldStep nodes w (.mesh act) = some w' ↔
      ∃ mesh, meshStep nodes w.mesh act = some mesh ∧
        w' = { w with mesh := mesh, image := act.images w.guest w.image } := by
  simp only [worldStep, Option.map_eq_some_iff]
  exact exists_congr fun mesh => and_congr_right fun _ => eq_comm

theorem worldStep_guest_iff {n : N} {memory : G} :
    worldStep nodes w (.guest n memory) = some w' ↔
      w.mesh.vm n = .running ∧ w' = { w with guest := Function.update w.guest n memory } := by
  simp only [worldStep]
  split_ifs with hrun
  · simp [hrun, eq_comm]
  · simp [hrun]

/-! ## Before the snapshots -/

/-- The VMs that the command has gone past are paused, and nothing is written yet. -/
def Pausing (nodes : List N) (w : MeshWorld N G) : Prop :=
  w.mesh.phase = .preparing ∨
    ∃ past todo, w.mesh.phase = .pausing todo ∧ nodes = past ++ todo ∧
      ∀ n ∈ past, w.mesh.vm n = .paused

/-- All VMs of the mesh are paused, and no snapshot thread has run. -/
def Stopped (nodes : List N) (w : MeshWorld N G) : Prop :=
  w.mesh.phase = .creating nodes [] ∧ ∀ n ∈ nodes, w.mesh.vm n = .paused

/-- The command has failed: nothing more comes of it. -/
def Dead (w : MeshWorld N G) : Prop := w.mesh.phase = .died

omit [DecidableEq N] in
theorem pausing_init (guest : N → G) : Pausing nodes (MeshWorld.init guest) := Or.inl rfl

/-- A call that the command goes on from has paused the VM. -/
theorem Vm.pause_of_ok (vm : Vm) {a : Answer} (h : a.outcome.ok = true) : vm.pause a = .paused := by
  rw [Vm.pause, if_pos (a.applied_of_ok h)]

theorem pausing_step (hs : Pausing nodes w) (h : worldStep nodes w act = some w') :
    (Pausing nodes w' ∨ Stopped nodes w' ∨ Dead w') ∧ ¬ act.IsCreate := by
  cases act with
  | guest n memory =>
    obtain ⟨-, rfl⟩ := worldStep_guest_iff.mp h
    exact ⟨Or.inl hs, id⟩
  | mesh act =>
    obtain ⟨mesh, hmesh, rfl⟩ := worldStep_mesh_iff.mp h
    obtain hphase | ⟨past, todo, hphase, rfl, hpast⟩ := hs
    · cases act <;> simp only [meshStep, hphase, reduceCtorEq] at hmesh
      case prepare ok =>
        obtain rfl := Option.some.inj hmesh
        refine ⟨?_, id⟩
        cases ok with
        | false => exact Or.inr (Or.inr rfl)
        | true => exact Or.inl (Or.inr ⟨[], nodes, rfl, rfl, by simp⟩)
    · cases todo with
      | nil =>
        cases act <;> simp only [meshStep, hphase, reduceCtorEq] at hmesh
        case proceed =>
          obtain rfl := Option.some.inj hmesh
          refine ⟨Or.inr (Or.inl ⟨rfl, fun n hn => hpast n ?_⟩), id⟩
          simpa using hn
      | cons m todo =>
        cases act <;> simp only [meshStep, hphase, reduceCtorEq] at hmesh
        case pause a =>
          obtain rfl := Option.some.inj hmesh
          refine ⟨?_, id⟩
          by_cases hok : a.outcome.ok = true
          · refine Or.inl (Or.inr ⟨past ++ [m], todo, ?_, by simp, fun n hn => ?_⟩)
            · simp [MeshAct.fails, hok]
            · show Function.update w.mesh.vm m ((w.mesh.vm m).pause a) n = .paused
              rcases eq_or_ne n m with rfl | hne
              · rw [Function.update_self, Vm.pause_of_ok _ hok]
              · rw [Function.update_of_ne hne]
                exact hpast n (by simpa [hne] using hn)
          · exact Or.inr (Or.inr (by simp [Dead, MeshAct.fails, hok]))

/-! ## While the snapshots are taken -/

/-- The snapshots that are still to come, in a command that has stopped all VMs. -/
def MeshPhase.pending : MeshPhase N → Option (List N)
  | .creating mkdirs creates => some (mkdirs ++ creates)
  | .recording => some []
  | .killing => some []
  | .done => some []
  | _ => none

/-- No guest has moved since the moment that all were stopped, when their memories were `cut`, and
    the snapshots that are not to come any more hold it. -/
structure Cut (nodes : List N) (cut : N → G) (w : MeshWorld N G) : Prop where
  stopped : ∀ n ∈ nodes, w.mesh.vm n ≠ .running
  frozen : ∀ n ∈ nodes, w.guest n = cut n
  paused : w.mesh.phase ≠ .done → ∀ n ∈ nodes, w.mesh.vm n = .paused
  written : ∃ todo, w.mesh.phase.pending = some todo ∧
    ∀ n ∈ nodes, n ∉ todo → w.image n = some (cut n)

omit [DecidableEq N] in
theorem Stopped.cut (h : Stopped nodes w) : Cut nodes w.guest w where
  stopped n hn := by simp [h.2 n hn]
  frozen _ _ := rfl
  paused _ := h.2
  written := ⟨nodes, by simp [MeshPhase.pending, h.1], fun n hn hnot => absurd hn hnot⟩

variable {cut : N → G}

/-- A guest of the mesh has no step while it is stopped. -/
theorem Cut.guest_step (hs : Cut nodes cut w) {n : N} {memory : G}
    (hrun : w.mesh.vm n = .running) :
    Cut nodes cut { w with guest := Function.update w.guest n memory } where
  stopped := hs.stopped
  frozen m hm := by
    have hne : m ≠ n := by
      rintro rfl
      exact hs.stopped m hm hrun
    exact (Function.update_of_ne hne memory w.guest).trans (hs.frozen m hm)
  paused := hs.paused
  written := hs.written

omit [DecidableEq N] in
/-- A step of the command that leaves the VMs alone, and after which what is written holds the
    memories of the cut. -/
theorem Cut.quiet (hs : Cut nodes cut w) {phase : MeshPhase N} {image : N → Option G}
    (hdone : w.mesh.phase ≠ .done)
    (hwritten : ∃ todo, phase.pending = some todo ∧ ∀ n ∈ nodes, n ∉ todo → image n = some (cut n)) :
    Cut nodes cut ⟨{ w.mesh with phase := phase }, w.guest, image⟩ where
  stopped := hs.stopped
  frozen := hs.frozen
  paused _ := hs.paused hdone
  written := hwritten

/-- What the thread of a node leaves when its snapshot is answered. -/
theorem Cut.create_written (hs : Cut nodes cut w) {mkdirs creates : List N} {n : N} {a : Answer}
    (hphase : w.mesh.phase = .creating mkdirs creates) (hok : a.outcome.ok = true) :
    ∀ m ∈ nodes, m ∉ mkdirs ++ creates.erase n →
      (MeshAct.create n a).images w.guest w.image m = some (cut m) := by
  obtain ⟨todo, htodo, hwritten⟩ := hs.written
  obtain rfl : mkdirs ++ creates = todo := by simpa [hphase, MeshPhase.pending] using htodo
  intro m hm hnot
  simp only [MeshAct.images, if_pos (a.applied_of_ok hok)]
  rcases eq_or_ne m n with rfl | hne
  · rw [Function.update_self, hs.frozen m hm]
  · rw [Function.update_of_ne hne]
    refine hwritten m hm fun hmem => hnot ?_
    rw [List.mem_append] at hmem ⊢
    exact hmem.imp_right (List.mem_erase_of_ne hne).mpr

/-- From the last pause on, no guest of the mesh moves, and every snapshot that is taken holds
    the memory that its guest had then. -/
theorem worldStep_frozen (hs : Cut nodes cut w) (h : worldStep nodes w act = some w') :
    Cut nodes cut w' ∨ Dead w' := by
  cases act with
  | guest n memory =>
    obtain ⟨hrun, rfl⟩ := worldStep_guest_iff.mp h
    exact Or.inl (hs.guest_step hrun)
  | mesh act =>
    obtain ⟨mesh, hmesh, rfl⟩ := worldStep_mesh_iff.mp h
    by_cases hfails : act.fails = true
    · right
      obtain ⟨-, -, ⟨-, hnot⟩ | ⟨hdied, -⟩⟩ := meshStep_effect hmesh
      · simp [hnot] at hfails
      · exact hdied.mpr hfails
    left
    obtain ⟨todo, htodo, hwritten⟩ := hs.written
    have hfalse : act.fails = false := Bool.eq_false_iff.mpr hfails
    unfold meshStep at hmesh
    simp only [hfalse, Bool.false_eq_true, if_false] at hmesh
    split at hmesh
    case h_1 hphase => simp [hphase, MeshPhase.pending] at htodo
    case h_2 hphase => simp [hphase, MeshPhase.pending] at htodo
    case h_3 hphase => simp [hphase, MeshPhase.pending] at htodo
    case h_4 mkdirs creates n ok hphase => -- a thread makes its directory
      split_ifs at hmesh with hmem
      obtain rfl := Option.some.inj hmesh
      obtain rfl : mkdirs ++ creates = todo := by simpa [hphase, MeshPhase.pending] using htodo
      refine hs.quiet (by simp [hphase]) ⟨_, rfl, fun m hm hnot => hwritten m hm fun hin => hnot ?_⟩
      rcases eq_or_ne m n with rfl | hne
      · simp
      · simpa [hne, List.mem_erase_of_ne hne] using hin
    case h_5 mkdirs creates n a hphase => -- a thread gets its answer
      split_ifs at hmesh with hmem
      obtain rfl := Option.some.inj hmesh
      have hok : a.outcome.ok = true := by simpa [MeshAct.fails] using hfalse
      exact hs.quiet (by simp [hphase]) ⟨_, rfl, hs.create_written hphase hok⟩
    case h_6 hphase => -- the last thread is joined
      obtain rfl := Option.some.inj hmesh
      obtain rfl : [] = todo := by simpa [hphase, MeshPhase.pending] using htodo
      exact hs.quiet (by simp [hphase]) ⟨[], rfl, hwritten⟩
    case h_7 hphase => -- the manifest
      obtain rfl := Option.some.inj hmesh
      obtain rfl : [] = todo := by simpa [hphase, MeshPhase.pending] using htodo
      exact hs.quiet (by simp [hphase]) ⟨[], rfl, hwritten⟩
    case h_8 found hphase => -- the kill
      obtain rfl := Option.some.inj hmesh
      obtain rfl : [] = todo := by simpa [hphase, MeshPhase.pending] using htodo
      refine ⟨fun n hn => ?_, hs.frozen, fun hdone => absurd rfl hdone, [], rfl, hwritten⟩
      show (if n ∈ found then Vm.killed else w.mesh.vm n) ≠ .running
      split_ifs
      · simp
      · exact hs.stopped n hn
    case h_9 => simp at hmesh

/-! ## Runs -/

/-- A run has no VM killed before its command is done. -/
def NoneKilled (w : MeshWorld N G) : Prop :=
  w.mesh.phase = .done ∨ ∀ n, w.mesh.vm n ≠ .killed

theorem noneKilled_step (hs : NoneKilled w) (h : worldStep nodes w act = some w') :
    NoneKilled w' := by
  cases act with
  | guest n memory =>
    obtain ⟨-, rfl⟩ := worldStep_guest_iff.mp h
    exact hs
  | mesh act =>
    obtain ⟨mesh, hmesh, rfl⟩ := worldStep_mesh_iff.mp h
    obtain ⟨-, hgoing, ⟨hdone, -⟩ | ⟨-, ⟨n, a, rfl, hvm⟩ | ⟨-, hvm⟩⟩⟩ := meshStep_effect hmesh
    · exact Or.inl hdone
    · refine Or.inr fun m => ?_
      show mesh.vm m ≠ .killed
      have hm := hs.resolve_left hgoing m
      rw [hvm]
      rcases eq_or_ne m n with rfl | hne
      · rw [Function.update_self, Vm.pause]
        split_ifs <;> simp [hm]
      · rwa [Function.update_of_ne hne]
    · refine Or.inr fun m => ?_
      show mesh.vm m ≠ .killed
      rw [hvm]
      exact hs.resolve_left hgoing m

variable {guest : N → G} {acts : List (WorldAct N G)}

/-- The run has a moment at which all VMs of the mesh are stopped and no snapshot has been
    answered yet, and what it reaches goes on from the cut at that moment. -/
def HasCut (nodes : List N) (guest : N → G) (acts : List (WorldAct N G)) (w : MeshWorld N G) : Prop :=
  ∃ before after t, acts = before ++ after ∧
    exec (worldStep nodes) (MeshWorld.init guest) before = some t ∧ Stopped nodes t ∧
    (∀ act ∈ before, ¬ act.IsCreate) ∧ Cut nodes t.guest w

theorem dead_step (hs : Dead w) (h : worldStep nodes w act = some w') : Dead w' := by
  cases act with
  | guest n memory =>
    obtain ⟨-, rfl⟩ := worldStep_guest_iff.mp h
    exact hs
  | mesh act =>
    obtain ⟨mesh, hmesh, rfl⟩ := worldStep_mesh_iff.mp h
    exact absurd hs (meshStep_effect hmesh).1

/-- A run is still pausing and has asked for no snapshot, or it has a cut, or it has failed. -/
theorem run_cut (h : exec (worldStep nodes) (MeshWorld.init guest) acts = some w) :
    (Pausing nodes w ∧ ∀ act ∈ acts, ¬ act.IsCreate) ∨ HasCut nodes guest acts w ∨ Dead w := by
  induction acts using List.reverseRecOn generalizing w with
  | nil =>
    obtain rfl := Option.some.inj h
    exact Or.inl ⟨pausing_init guest, by simp⟩
  | append_singleton acts act ih =>
    have hrun := h
    rw [exec_append] at hrun
    obtain ⟨u, hu, hstep⟩ := Option.bind_eq_some_iff.mp hrun
    obtain ⟨v, hv, hend⟩ := exec_cons_iff.mp hstep
    obtain rfl := Option.some.inj hend
    obtain ⟨hpausing, hnone⟩ | ⟨before, after, t, hacts, ht, hstopped, hnone, hcut⟩ | hdead := ih hu
    · obtain ⟨hnext, hnot⟩ := pausing_step hpausing hv
      have hall : ∀ b ∈ acts ++ [act], ¬ b.IsCreate := by
        intro b hb
        rcases List.mem_append.mp hb with hmem | hmem
        · exact hnone b hmem
        · rwa [List.mem_singleton.mp hmem]
      obtain hpausing' | hstopped | hdead := hnext
      · exact Or.inl ⟨hpausing', hall⟩
      · exact Or.inr (Or.inl ⟨acts ++ [act], [], v, by simp, h, hstopped, hall, hstopped.cut⟩)
      · exact Or.inr (Or.inr hdead)
    · obtain hcut' | hdead := worldStep_frozen hcut hv
      · exact Or.inr (Or.inl ⟨before, after ++ [act], t, by rw [hacts, List.append_assoc], ht,
          hstopped, hnone, hcut'⟩)
      · exact Or.inr (Or.inr hdead)
    · exact Or.inr (Or.inr (dead_step hdead hv))

/-- A snapshot is answered only while all VMs of the mesh are paused. -/
theorem paused_of_create {n : N} {a : Answer}
    (h : exec (worldStep nodes) (MeshWorld.init guest) acts = some w)
    (hcreate : worldStep nodes w (.mesh (.create n a)) = some w') :
    ∀ m ∈ nodes, w.mesh.vm m = .paused := by
  have henabled : ∃ mkdirs creates, w.mesh.phase = .creating mkdirs creates := by
    obtain ⟨mesh, hmesh, -⟩ := worldStep_mesh_iff.mp hcreate
    unfold meshStep at hmesh
    dsimp only at hmesh
    split at hmesh <;> simp_all
  obtain ⟨mkdirs, creates, hphase⟩ := henabled
  obtain ⟨hpausing, -⟩ | ⟨-, -, t, -, -, -, -, hcut⟩ | hdead := run_cut h
  · obtain hprep | ⟨-, todo, hpause, -, -⟩ := hpausing
    · simp [hphase] at hprep
    · simp [hphase] at hpause
  · exact hcut.paused (by simp [hphase])
  · simp [Dead, hphase] at hdead

/-- The snapshots of a mesh are one consistent cut. In every run of `mesh-take` beside the guests,
    in any interleaving of its threads with the steps of the guests: a snapshot is answered only
    while all VMs of the mesh are paused; and once no snapshot is to come any more, there was a
    moment before the first of them at which every snapshot holds what its guest was, and no guest
    of the mesh has moved since. A VM is killed only then. -/
theorem meshTake_cut (h : exec (worldStep nodes) (MeshWorld.init guest) acts = some w) :
    (∀ n a w', worldStep nodes w (.mesh (.create n a)) = some w' →
      ∀ m ∈ nodes, w.mesh.vm m = .paused) ∧
    (w.mesh.phase.pending = some [] → ∃ before after t, acts = before ++ after ∧
      exec (worldStep nodes) (MeshWorld.init guest) before = some t ∧
      (∀ n ∈ nodes, t.mesh.vm n = .paused) ∧ (∀ act ∈ before, ¬ act.IsCreate) ∧
      ∀ n ∈ nodes, w.image n = some (t.guest n) ∧ w.guest n = t.guest n) ∧
    ∀ n, w.mesh.vm n = .killed → w.mesh.phase.pending = some [] := by
  refine ⟨fun n a w' => paused_of_create h, fun hpending => ?_, fun n hn => ?_⟩
  · obtain ⟨hpausing, -⟩ | ⟨before, after, t, hacts, ht, hstopped, hnone, hcut⟩ | hdead := run_cut h
    · obtain hphase | ⟨-, todo, hphase, -, -⟩ := hpausing
      · simp [hphase, MeshPhase.pending] at hpending
      · simp [hphase, MeshPhase.pending] at hpending
    · obtain ⟨todo, htodo, hwritten⟩ := hcut.written
      obtain rfl : [] = todo := Option.some.inj (hpending.symm.trans htodo)
      exact ⟨before, after, t, hacts, ht, hstopped.2, hnone,
        fun n hn => ⟨hwritten n hn (by simp), hcut.frozen n hn⟩⟩
    · rw [show w.mesh.phase = .died from hdead] at hpending
      simp [MeshPhase.pending] at hpending
  · have hkilled : NoneKilled w :=
      exec_invariant (fun _ _ _ hstep hs => noneKilled_step hs hstep) h
        (Or.inr fun n => by simp [MeshWorld.init, MeshState.init])
    obtain hdone | hnone := hkilled
    · simp [hdone, MeshPhase.pending]
    · exact absurd hn (hnone n)

/-- Two guests that count: the second still runs when the first is paused. -/
def countingRun : List (WorldAct Bool ℕ) :=
  [.mesh (.prepare true), .guest true 1, .mesh (.pause .noContent), .guest false 5,
    .mesh (.pause .noContent), .mesh .proceed, .mesh (.mkdir false true), .mesh (.mkdir true true),
    .mesh (.create false .noContent), .mesh (.create true .noContent), .mesh .proceed]

/-- Where that run ends. -/
def countingEnd : MeshWorld Bool ℕ where
  mesh := ⟨Function.update (Function.update (fun _ => .running) true .paused) false .paused,
    .recording⟩
  guest := Function.update (Function.update (fun _ => 0) true 1) false 5
  image := Function.update (Function.update (fun _ => none) false (some 5)) true (some 1)

theorem countingRun_ends :
    exec (worldStep [true, false]) (MeshWorld.init fun _ => 0) countingRun = some countingEnd := by
  simp [exec, worldStep, meshStep, countingRun, countingEnd, MeshWorld.init, MeshState.init,
    MeshAct.fails, MeshAct.images, Answer.noContent, ApiOutcome.ok, Vm.pause]

/-- The snapshots of the two hold what they were at one moment. -/
theorem meshTake_cut_counting : ∃ t : MeshWorld Bool ℕ,
    (∀ n ∈ [true, false], t.mesh.vm n = .paused) ∧
      ∀ n ∈ [true, false], countingEnd.image n = some (t.guest n) := by
  obtain ⟨-, hcut, -⟩ := meshTake_cut countingRun_ends
  obtain ⟨-, -, t, -, -, hpaused, -, himage⟩ := hcut rfl
  exact ⟨t, hpaused, fun n hn => (himage n hn).1⟩

end Kubenyx.Snap
