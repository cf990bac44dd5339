import Kubenyx.Snap.MeshCut
import Mathlib.Logic.Relation

/-!
# Resuming a mesh

Model of `mesh-resume` and `mesh-cycle` (lib.rs:1800-2020) beside the VMMs that they start. One
thread a node removes the old API socket, spawns a VMM, waits for its socket and has it load the
snapshot of the node; a guest runs from then on. The main thread joins the threads in the order
of the manifest, starts threads that poke the clocks, and probes the first server. `mesh-resume`
leaves the VMMs behind, `mesh-cycle` kills them and starts over.

The threads, the VMMs and the guests take their steps in any order, and a VMM may end at any
time. What a command that dies kills is not here: its table of VMMs is a model of its own.

* `VmmsOk`: every VMM is the one of its thread, and its guest has come from the snapshot of its
  node.
* `Counts`: how often every node was loaded and poked, by the rounds that have gone by.
* `meshResume_restores`: a resumed mesh goes on from one moment of the mesh that was taken.
-/

namespace Kubenyx.Snap

open Kubenyx.Common

variable {N G : Type} [DecidableEq N]

/-! ## The command and its VMMs -/

/-- What the command is run on: the nodes of the manifest, each with a workdir of its own, the
    snapshots, what a guest can do next, and the rounds of `mesh-cycle`. -/
structure Restore (N G : Type) where
  nodes : List N
  nodup : nodes.Nodup
  isServer : N → Bool
  image : N → Option G
  moves : G → G → Bool
  rounds : Option ℕ

/-- There is a quorum to wait for (lib.rs:1889-1890). -/
def Restore.multiServer (R : Restore N G) : Bool := 1 < (R.nodes.filter R.isServer).length

/-- A VMM that was started for a node, with the memory of its guest once it has one. -/
structure Vmm (N G : Type) where
  id : ℕ
  node : N
  guest : Option G

/-- Where the thread of a node stands (lib.rs:1812-1852), with the VMM that it has spawned. -/
inductive ThreadPc where
  | started
  /-- The socket is removed; the console and the spawn come next. -/
  | cleared
  /-- It waits for the socket. -/
  | spawned (id : ℕ)
  /-- It has asked for the load. -/
  | connected (id : ℕ)
  /-- It has returned. -/
  | loaded (id : ℕ)
  deriving DecidableEq

/-- The VMM of the thread. -/
def ThreadPc.vmm : ThreadPc → Option ℕ
  | .spawned id => some id
  | .connected id => some id
  | .loaded id => some id
  | _ => none

/-- Where the thread stands that pokes a node (lib.rs:1864-1870). -/
inductive Poker where
  | started
  /-- It has its socket, and has sent so many pokes. -/
  | sending (sent : Fin 3)
  | returned
  deriving DecidableEq

/-- What such a thread does. -/
inductive PokeEvent where
  /-- It gets its socket, or returns with a warning. -/
  | bind (ok : Bool)
  | send
  /-- It panics at a clock before the epoch. -/
  | panic
  deriving DecidableEq

/-- `send_time_pokes` with three pokes (lib.rs:237-254). -/
def Poker.next : Poker → PokeEvent → Option Poker
  | .started, .bind ok => some (if ok then .sending 0 else .returned)
  | .sending k, .send => some (if h : k.val + 1 < 3 then .sending ⟨k.val + 1, h⟩ else .returned)
  | .sending _, .panic => some .returned
  | _, _ => none

/-- Where the main thread stands. -/
inductive ResumePhase (N : Type) where
  /-- These threads are still to be joined (lib.rs:1854-1859). -/
  | joining (todo : List N)
  /-- It waits for the API server of the first node (lib.rs:1874-1883). -/
  | probing
  /-- It waits for a write that the quorum commits (lib.rs:1890-1899). -/
  | writing
  /-- It joins the threads that poke (lib.rs:1900-1902). -/
  | finishing
  /-- These VMMs of the round are still to be killed (lib.rs:1998-2003). -/
  | killing (todo : List N)
  | done
  | died
  deriving DecidableEq

/-- The command and the VMMs that are alive, with the socket of every node: the VMM that has
    bound it, alive or not. -/
structure ResumeWorld (N G : Type) where
  phase : ResumePhase N
  thread : N → ThreadPc
  live : List (Vmm N G)
  sock : N → Option ℕ
  poker : N → Poker
  round : ℕ
  nextId : ℕ

inductive ResumeAct (N G : Type) where
  /-- The thread of a node removes the socket. -/
  | unlink (n : N)
  /-- It creates the console file and spawns a VMM, or dies. -/
  | spawn (n : N) (ok : Bool)
  /-- It sees the socket, or dies after five seconds. -/
  | seen (n : N) (appeared : Bool)
  /-- It gets the answer to the load. -/
  | load (n : N) (a : Answer)
  /-- The main thread goes on to the next thread, or past the last one. -/
  | join
  /-- The thread that pokes a node goes on. -/
  | poke (n : N) (e : PokeEvent)
  | probe (up : Bool)
  | write (committed : Bool)
  /-- The threads that poke are joined. -/
  | finish
  /-- The next VMM of the round is killed and waited for, or the round is over. -/
  | kill
  /-- A VMM binds the socket of its node. -/
  | bind (id : ℕ)
  /-- A guest moves on. -/
  | guest (id : ℕ) (memory : G)
  /-- A VMM ends by itself. -/
  | crash (id : ℕ)

/-- The VMM with the number `id` has this guest from now on. -/
def setGuest (id : ℕ) (guest : Option G) (live : List (Vmm N G)) : List (Vmm N G) :=
  live.map fun v => if v.id = id then { v with guest := guest } else v

/-- All VMMs but the one with the number `id`. -/
def dropVmm (id : ℕ) (live : List (Vmm N G)) : List (Vmm N G) := live.filter (·.id ≠ id)

namespace ResumeWorld

/-- The thread of a node moves on. -/
def goto (w : ResumeWorld N G) (n : N) (pc : ThreadPc) : ResumeWorld N G :=
  { w with thread := Function.update w.thread n pc }

/-- The command dies. -/
def die (w : ResumeWorld N G) : ResumeWorld N G := { w with phase := .died }

/-- The threads of a round are started (lib.rs:1808-1812). -/
def beginRound (R : Restore N G) (w : ResumeWorld N G) : ResumeWorld N G :=
  { w with
    phase := .joining R.nodes
    thread := fun _ => .started
    poker := fun _ => .started
    round := w.round + 1 }

/-- The command is started: sockets of earlier runs may lie about. A cycle of no rounds has no
    median (lib.rs:2008). -/
def init (R : Restore N G) (stale : N → Bool) : ResumeWorld N G where
  phase := if R.rounds = some 0 then .died else .joining R.nodes
  thread _ := .started
  live := []
  sock n := if stale n then some 0 else none
  poker _ := .started
  round := 1
  nextId := 1

end ResumeWorld

open ResumeWorld in
/-- A step of the command, of a VMM or of a guest. -/
def resumeStep (R : Restore N G) (w : ResumeWorld N G) : ResumeAct N G → Option (ResumeWorld N G)
  | .unlink n =>
    match w.phase, w.thread n with
    | .joining _, .started =>
      if n ∈ R.nodes then
        some { w.goto n .cleared with sock := Function.update w.sock n none }
      else none
    | _, _ => none
  | .spawn n ok =>
    match w.phase, w.thread n with
    | .joining _, .cleared =>
      if ok then
        some { w.goto n (.spawned w.nextId) with
          live := ⟨w.nextId, n, none⟩ :: w.live
          nextId := w.nextId + 1 }
      else some w.die
    | _, _ => none
  | .seen n appeared =>
    match w.phase, w.thread n with
    | .joining _, .spawned id =>
      if appeared then if (w.sock n).isSome then some (w.goto n (.connected id)) else none
      else some w.die
    | _, _ => none
  | .load n a =>
    match w.phase, w.thread n with
    | .joining _, .connected id =>
      let next := if a.outcome.ok then w.goto n (.loaded id) else w.die
      if a.applied then
        match w.sock n, R.image n with
        | some q, some g =>
          -- the VMM behind the socket loads the files of this node
          if w.live.any fun v => v.id = q ∧ v.guest.isNone then
            some { next with live := setGuest q (some g) w.live }
          else none
        | _, _ => none
      else some next
    | _, _ => none
  | .join =>
    match w.phase with
    | .joining (n :: todo) =>
      match w.thread n with
      | .loaded _ => some { w with phase := .joining todo }
      | _ => none
    | .joining [] => some { w with phase := .probing }
    | _ => none
  | .poke n e =>
    match w.phase with
    | .probing | .writing | .finishing =>
      if n ∈ R.nodes then
        ((w.poker n).next e).map fun p => { w with poker := Function.update w.poker n p }
      else none
    | _ => none
  | .probe up =>
    match w.phase with
    | .probing =>
      if up then some { w with phase := if R.multiServer then .writing else .finishing }
      else some w.die
    | _ => none
  | .write committed =>
    match w.phase with
    | .writing => if committed then some { w with phase := .finishing } else some w.die
    | _ => none
  | .finish =>
    match w.phase with
    | .finishing =>
      if R.nodes.all fun n => w.poker n = .returned then
        some { w with phase := if R.rounds = none then .done else .killing R.nodes }
      else none
    | _ => none
  | .kill =>
    match w.phase with
    | .killing (n :: todo) =>
      match w.thread n with
      | .loaded id =>
        some { w with
          phase := .killing todo
          live := dropVmm id w.live
          sock := Function.update w.sock n none }
      | _ => none
    | .killing [] =>
      if R.rounds = some w.round then some { w with phase := .done } else some (w.beginRound R)
    | _ => none
  | .bind id =>
    match w.live.find? fun v => v.id = id with
    | some v =>
      if w.sock v.node = none then
        some { w with sock := Function.update w.sock v.node (some id) }
      else none
    | none => none
  | .guest id memory =>
    if w.live.any fun v => v.id = id ∧ v.guest.any (R.moves · memory) then
      some { w with live := setGuest id (some memory) w.live }
    else none
  | .crash id =>
    if w.live.any fun v => v.id = id then some { w with live := dropVmm id w.live } else none

/-! ## What a step can do -/

/-- The steps with what they leave. -/
inductive Resumes (R : Restore N G) (w : ResumeWorld N G) : ResumeAct N G → ResumeWorld N G → Prop
  | unlink {todo n} (hphase : w.phase = .joining todo) (hpc : w.thread n = .started)
      (hn : n ∈ R.nodes) :
      Resumes R w (.unlink n) { w.goto n .cleared with sock := Function.update w.sock n none }
  | spawn {todo n} (hphase : w.phase = .joining todo) (hpc : w.thread n = .cleared) :
      Resumes R w (.spawn n true) { w.goto n (.spawned w.nextId) with
        live := ⟨w.nextId, n, none⟩ :: w.live, nextId := w.nextId + 1 }
  | seen {todo n id} (hphase : w.phase = .joining todo) (hpc : w.thread n = .spawned id) :
      Resumes R w (.seen n true) (w.goto n (.connected id))
  | load {todo n id a q g} (hphase : w.phase = .joining todo) (hpc : w.thread n = .connected id)
      (hok : a.outcome.ok = true) (hsock : w.sock n = some q) (himage : R.image n = some g)
      (hlive : ∃ v ∈ w.live, v.id = q) :
      Resumes R w (.load n a) { w.goto n (.loaded id) with live := setGuest q (some g) w.live }
  /-- The load took effect, but the thread sees it fail. -/
  | lost {n a q g} (hok : a.outcome.ok = false) (hsock : w.sock n = some q)
      (himage : R.image n = some g) :
      Resumes R w (.load n a) { w.die with live := setGuest q (some g) w.live }
  | dies {act} : Resumes R w act w.die
  | join {n todo id} (hphase : w.phase = .joining (n :: todo)) (hpc : w.thread n = .loaded id) :
      Resumes R w .join { w with phase := .joining todo }
  | joined (hphase : w.phase = .joining []) : Resumes R w .join { w with phase := .probing }
  | poke {n e p} (hphase : w.phase = .probing ∨ w.phase = .writing ∨ w.phase = .finishing)
      (hnext : (w.poker n).next e = some p) :
      Resumes R w (.poke n e) { w with poker := Function.update w.poker n p }
  | probe (hphase : w.phase = .probing) : Resumes R w (.probe true)
      { w with phase := if R.multiServer then .writing else .finishing }
  | write (hphase : w.phase = .writing) : Resumes R w (.write true) { w with phase := .finishing }
  | finish (hphase : w.phase = .finishing) (hpokers : ∀ n ∈ R.nodes, w.poker n = .returned) :
      Resumes R w .finish { w with phase := if R.rounds = none then .done else .killing R.nodes }
  | kill {n todo id} (hphase : w.phase = .killing (n :: todo)) (hpc : w.thread n = .loaded id) :
      Resumes R w .kill { w with
        phase := .killing todo, live := dropVmm id w.live, sock := Function.update w.sock n none }
  | last (hphase : w.phase = .killing []) (hround : R.rounds = some w.round) :
      Resumes R w .kill { w with phase := .done }
  | again (hphase : w.phase = .killing []) : Resumes R w .kill (w.beginRound R)
  | bind {v} (hv : v ∈ w.live) (hsock : w.sock v.node = none) :
      Resumes R w (.bind v.id) { w with sock := Function.update w.sock v.node (some v.id) }
  | guest {v memory} (hv : v ∈ w.live) (hmoves : v.guest.any (R.moves · memory) = true) :
      Resumes R w (.guest v.id memory) { w with live := setGuest v.id (some memory) w.live }
  | crash {id} : Resumes R w (.crash id) { w with live := dropVmm id w.live }

variable {R : Restore N G} {w w' : ResumeWorld N G} {act : ResumeAct N G}
  {acts : List (ResumeAct N G)}

/-- A command that has died stays so. -/
theorem Resumes.died (hs : Resumes R w act w') (h : w.phase = .died) : w'.phase = .died := by
  match hs with
  | .lost .. | .dies => rfl
  | .bind .. | .guest .. | .crash => exact h
  | .poke hphase _ => exact absurd hphase (by simp [h])
  | .unlink hphase .. | .spawn hphase .. | .seen hphase .. | .load hphase .. | .join hphase ..
  | .joined hphase | .probe hphase | .write hphase | .finish hphase .. | .kill hphase ..
  | .last hphase .. | .again hphase => exact nomatch h.symm.trans hphase

theorem resumeStep_resumes (h : resumeStep R w act = some w') : Resumes R w act w' := by
  cases act with
  | unlink n =>
    simp only [resumeStep] at h
    split at h
    · rename_i hphase hpc
      split_ifs at h with hn
      obtain rfl := Option.some.inj h
      exact .unlink hphase hpc hn
    · cases h
  | spawn n ok =>
    simp only [resumeStep] at h
    split at h
    · rename_i hphase hpc
      cases ok with
      | true =>
        obtain rfl := Option.some.inj h
        exact .spawn hphase hpc
      | false =>
        obtain rfl := Option.some.inj h
        exact .dies
    · cases h
  | seen n appeared =>
    simp only [resumeStep] at h
    split at h
    · rename_i hphase hpc
      split_ifs at h with happeared
      · obtain rfl := Option.some.inj h
        subst happeared
        exact .seen hphase hpc
      · obtain rfl := Option.some.inj h
        exact .dies
    · cases h
  | load n a =>
    simp only [resumeStep] at h
    split at h
    · rename_i id hphase hpc
      split_ifs at h with happlied hok hok
      · split at h
        · rename_i hsock himage
          split_ifs at h with hlive
          obtain rfl := Option.some.inj h
          obtain ⟨v, hv, hid⟩ := List.any_eq_true.mp hlive
          exact .load hphase hpc hok hsock himage ⟨v, hv, (of_decide_eq_true hid).1⟩
        · cases h
      · split at h
        · rename_i hsock himage
          split_ifs at h with hlive
          obtain rfl := Option.some.inj h
          exact .lost (Bool.eq_false_iff.mpr hok) hsock himage
        · cases h
      · exact absurd (a.applied_of_ok hok) happlied
      · obtain rfl := Option.some.inj h
        exact .dies
    · cases h
  | join =>
    simp only [resumeStep] at h
    split at h
    · rename_i hphase
      split at h
      · rename_i hpc
        obtain rfl := Option.some.inj h
        exact .join hphase hpc
      · cases h
    · rename_i hphase
      obtain rfl := Option.some.inj h
      exact .joined hphase
    · cases h
  | poke n e =>
    have hpoke : ∀ hphase : w.phase = .probing ∨ w.phase = .writing ∨ w.phase = .finishing,
        (if n ∈ R.nodes then ((w.poker n).next e).map fun p =>
          { w with poker := Function.update w.poker n p } else none) = some w' →
        Resumes R w (.poke n e) w' := by
      intro hphase h
      split_ifs at h
      obtain ⟨p, hnext, rfl⟩ := Option.map_eq_some_iff.mp h
      exact .poke hphase hnext
    simp only [resumeStep] at h
    split at h
    · rename_i hphase
      exact hpoke (Or.inl hphase) h
    · rename_i hphase
      exact hpoke (Or.inr (Or.inl hphase)) h
    · rename_i hphase
      exact hpoke (Or.inr (Or.inr hphase)) h
    · cases h
  | probe up =>
    simp only [resumeStep] at h
    split at h
    · rename_i hphase
      cases up with
      | true =>
        obtain rfl := Option.some.inj h
        exact .probe hphase
      | false =>
        obtain rfl := Option.some.inj h
        exact .dies
    · cases h
  | write committed =>
    simp only [resumeStep] at h
    split at h
    · rename_i hphase
      cases committed with
      | true =>
        obtain rfl := Option.some.inj h
        exact .write hphase
      | false =>
        obtain rfl := Option.some.inj h
        exact .dies
    · cases h
  | finish =>
    simp only [resumeStep] at h
    split at h
    · rename_i hphase
      by_cases hpokers : (R.nodes.all fun n => w.poker n = .returned) = true
      · rw [if_pos hpokers] at h
        obtain rfl := Option.some.inj h
        exact .finish hphase (by simpa using hpokers)
      · rw [if_neg hpokers] at h
        cases h
    · cases h
  | kill =>
    simp only [resumeStep] at h
    split at h
    · rename_i hphase
      split at h
      · rename_i hpc
        obtain rfl := Option.some.inj h
        exact .kill hphase hpc
      · cases h
    · rename_i hphase
      split_ifs at h with hround
      · obtain rfl := Option.some.inj h
        exact .last hphase hround
      · obtain rfl := Option.some.inj h
        exact .again hphase
    · cases h
  | bind id =>
    simp only [resumeStep] at h
    split at h
    · rename_i v hfind
      split_ifs at h with hsock
      obtain rfl := Option.some.inj h
      obtain rfl : v.id = id := by simpa using List.find?_some hfind
      exact .bind (List.mem_of_find?_eq_some hfind) hsock
    · cases h
  | guest id memory =>
    simp only [resumeStep] at h
    split_ifs at h with hany
    obtain rfl := Option.some.inj h
    obtain ⟨v, hv, hid⟩ := List.any_eq_true.mp hany
    obtain ⟨rfl, hmoves⟩ := of_decide_eq_true hid
    exact .guest hv hmoves
  | crash id =>
    simp only [resumeStep] at h
    split_ifs at h
    obtain rfl := Option.some.inj h
    exact .crash

/-! ## The VMMs -/

omit [DecidableEq N] in
theorem mem_setGuest {id : ℕ} {guest : Option G} {live : List (Vmm N G)} {v' : Vmm N G} :
    v' ∈ setGuest id guest live →
      ∃ v ∈ live, v'.id = v.id ∧ v'.node = v.node ∧
        v'.guest = if v.id = id then guest else v.guest := by
  intro h
  obtain ⟨v, hv, rfl⟩ := List.mem_map.mp h
  refine ⟨v, hv, ?_⟩
  split_ifs <;> simp

omit [DecidableEq N] in
theorem map_id_setGuest (id : ℕ) (guest : Option G) (live : List (Vmm N G)) :
    (setGuest id guest live).map Vmm.id = live.map Vmm.id := by
  unfold setGuest
  rw [List.map_map]
  refine List.map_congr_left fun v _ => ?_
  rw [Function.comp_apply]
  split_ifs <;> rfl

omit [DecidableEq N] in
theorem mem_dropVmm {id : ℕ} {live : List (Vmm N G)} {v : Vmm N G} :
    v ∈ dropVmm id live ↔ v ∈ live ∧ v.id ≠ id := by
  simp [dropVmm]

theorem goto_thread_self {n : N} {pc : ThreadPc} : (w.goto n pc).thread n = pc :=
  Function.update_self ..

theorem goto_thread_of_ne {n m : N} {pc : ThreadPc} (h : m ≠ n) :
    (w.goto n pc).thread m = w.thread m :=
  Function.update_of_ne h ..

/-- The memory of a guest has come from the snapshot of its node. -/
def Restored (R : Restore N G) (v : Vmm N G) : Prop :=
  ∀ g, v.guest = some g → ∃ g₀, R.image v.node = some g₀ ∧
    Relation.ReflTransGen (fun a b => R.moves a b = true) g₀ g

/-- Every VMM that is alive is the one that the thread of its node has spawned, it is the only one
    behind the socket of that node, and its guest has come from the snapshot of that node. -/
structure VmmsOk (R : Restore N G) (w : ResumeWorld N G) : Prop where
  nodup : (w.live.map Vmm.id).Nodup
  threads : ∀ n, w.thread n ≠ .started → n ∈ R.nodes
  owner : ∀ v ∈ w.live, (w.thread v.node).vmm = some v.id
  fresh : ∀ n id, (w.thread n).vmm = some id → id < w.nextId
  sock_fresh : ∀ n q, w.sock n = some q → q < w.nextId
  sock_node : ∀ n q, w.sock n = some q → ∀ v ∈ w.live, v.id = q → v.node = n
  restored : ∀ v ∈ w.live, Restored R v
  loaded : ∀ n id, w.thread n = .loaded id → ∀ v ∈ w.live, v.id = id → v.guest.isSome = true

omit [DecidableEq N] in
theorem vmmsOk_init (R : Restore N G) (stale : N → Bool) : VmmsOk R (ResumeWorld.init R stale) where
  nodup := List.nodup_nil
  threads _ h := absurd rfl h
  owner := nofun
  fresh := nofun
  sock_fresh n q h := by
    simp only [ResumeWorld.init] at h ⊢
    split_ifs at h
    obtain rfl := Option.some.inj h
    exact Nat.one_pos
  sock_node _ _ _ := nofun
  restored := nofun
  loaded := nofun

omit [DecidableEq N] in
/-- The main thread moves on. -/
theorem VmmsOk.phase (h : VmmsOk R w) (phase : ResumePhase N) (poker : N → Poker) (round : ℕ) :
    VmmsOk R { w with phase := phase, poker := poker, round := round } :=
  ⟨h.nodup, h.threads, h.owner, h.fresh, h.sock_fresh, h.sock_node, h.restored, h.loaded⟩

omit [DecidableEq N] in
/-- VMMs are gone. -/
theorem VmmsOk.drop (h : VmmsOk R w) (id : ℕ) : VmmsOk R { w with live := dropVmm id w.live } where
  nodup := h.nodup.sublist (List.filter_sublist.map _)
  threads := h.threads
  owner v hv := h.owner v (mem_dropVmm.mp hv).1
  fresh := h.fresh
  sock_fresh := h.sock_fresh
  sock_node n q hq v hv := h.sock_node n q hq v (mem_dropVmm.mp hv).1
  restored v hv := h.restored v (mem_dropVmm.mp hv).1
  loaded n id hn v hv := h.loaded n id hn v (mem_dropVmm.mp hv).1

/-- A socket is removed. -/
theorem VmmsOk.unlink (h : VmmsOk R w) (n : N) :
    VmmsOk R { w with sock := Function.update w.sock n none } := by
  have hsock : ∀ m q, Function.update w.sock n none m = some q → w.sock m = some q := by
    intro m q hq
    rcases eq_or_ne m n with rfl | hne
    · rw [Function.update_self] at hq
      cases hq
    · rwa [Function.update_of_ne hne] at hq
  exact ⟨h.nodup, h.threads, h.owner, h.fresh, fun m q hq => h.sock_fresh m q (hsock m q hq),
    fun m q hq => h.sock_node m q (hsock m q hq), h.restored, h.loaded⟩

/-- A thread moves on with the VMM that it has. -/
theorem VmmsOk.goto (h : VmmsOk R w) {n : N} {pc : ThreadPc} (hn : n ∈ R.nodes)
    (hpc : pc.vmm = (w.thread n).vmm)
    (hloaded : ∀ id, pc = .loaded id → ∀ v ∈ w.live, v.id = id → v.guest.isSome = true) :
    VmmsOk R (w.goto n pc) := by
  have hvmm : ∀ m, ((w.goto n pc).thread m).vmm = (w.thread m).vmm := by
    intro m
    rcases eq_or_ne m n with rfl | hne
    · rw [goto_thread_self, hpc]
    · rw [goto_thread_of_ne hne]
  refine ⟨h.nodup, fun m hm => ?_, fun v hv => ?_, fun m id hm => ?_, h.sock_fresh, h.sock_node,
    h.restored, ?_⟩
  · rcases eq_or_ne m n with rfl | hne
    · exact hn
    · exact h.threads m fun hm' => hm ((goto_thread_of_ne hne).trans hm')
  · rw [hvmm]
    exact h.owner v hv
  · rw [hvmm] at hm
    exact h.fresh m id hm
  · intro m id hm
    rcases eq_or_ne m n with rfl | hne
    · exact hloaded id (goto_thread_self.symm.trans hm)
    · exact h.loaded m id ((goto_thread_of_ne hne).symm.trans hm)

omit [DecidableEq N] in
/-- The guest of a VMM changes. -/
theorem VmmsOk.change (h : VmmsOk R w) {q : ℕ} {g : G}
    (hrestored : ∀ v ∈ w.live, v.id = q → ∃ g₀, R.image v.node = some g₀ ∧
      Relation.ReflTransGen (fun a b => R.moves a b = true) g₀ g) :
    VmmsOk R { w with live := setGuest q (some g) w.live } where
  nodup := by
    rw [map_id_setGuest]
    exact h.nodup
  threads := h.threads
  owner v' hv' := by
    obtain ⟨v, hv, hid, hnode, -⟩ := mem_setGuest hv'
    rw [hid, hnode]
    exact h.owner v hv
  fresh := h.fresh
  sock_fresh := h.sock_fresh
  sock_node n p hp v' hv' hid' := by
    obtain ⟨v, hv, hid, hnode, -⟩ := mem_setGuest hv'
    rw [hnode]
    exact h.sock_node n p hp v hv (hid.symm.trans hid')
  restored v' hv' := by
    obtain ⟨v, hv, hid, hnode, hguest⟩ := mem_setGuest hv'
    intro g' hg'
    rw [hnode]
    rw [hguest] at hg'
    split_ifs at hg' with hq
    · obtain rfl := Option.some.inj hg'
      exact hrestored v hv hq
    · exact h.restored v hv g' hg'
  loaded n id hn v' hv' hid' := by
    obtain ⟨v, hv, hid, -, hguest⟩ := mem_setGuest hv'
    rw [hguest]
    split_ifs
    · rfl
    · exact h.loaded n id hn v hv (hid.symm.trans hid')

omit [DecidableEq N] in
/-- The VMM behind the socket of a node is the one of its thread. -/
theorem VmmsOk.behind (h : VmmsOk R w) {n : N} {q : ℕ} {v : Vmm N G} (hsock : w.sock n = some q)
    (hv : v ∈ w.live) (hid : v.id = q) : v.node = n ∧ (w.thread n).vmm = some q := by
  have hnode := h.sock_node n q hsock v hv hid
  have howner := h.owner v hv
  rw [hnode, hid] at howner
  exact ⟨hnode, howner⟩

omit [DecidableEq N] in
/-- A VMM is the only one of its node. -/
theorem VmmsOk.nodup_node (h : VmmsOk R w) : (w.live.map Vmm.node).Nodup := by
  refine List.Nodup.map_on (fun v hv v' hv' hnode => ?_) (List.Nodup.of_map _ h.nodup)
  have hvmm := (h.owner v hv).symm.trans (hnode ▸ h.owner v' hv')
  exact List.inj_on_of_nodup_map h.nodup hv hv' (Option.some.inj hvmm)

/-- A thread without a VMM spawns one. -/
theorem VmmsOk.spawn (h : VmmsOk R w) {n : N} (hpc : w.thread n = .cleared) :
    VmmsOk R { w.goto n (.spawned w.nextId) with
      live := ⟨w.nextId, n, none⟩ :: w.live, nextId := w.nextId + 1 } := by
  have hfresh : ∀ v ∈ w.live, v.id < w.nextId := fun v hv => h.fresh _ _ (h.owner v hv)
  have hother : ∀ v ∈ w.live, v.node ≠ n := by
    rintro v hv rfl
    have howner := h.owner v hv
    rw [hpc] at howner
    cases howner
  refine ⟨?_, fun m hm => ?_, ?_, ?_, ?_, ?_, ?_, ?_⟩
  · rw [List.map_cons, List.nodup_cons]
    refine ⟨fun hmem => ?_, h.nodup⟩
    obtain ⟨v, hv, hid⟩ := List.mem_map.mp hmem
    exact (hfresh v hv).ne hid
  · rcases eq_or_ne m n with rfl | hne
    · exact h.threads m (by simp [hpc])
    · exact h.threads m fun hm' => hm ((goto_thread_of_ne hne).trans hm')
  · refine List.forall_mem_cons.mpr ⟨congrArg ThreadPc.vmm goto_thread_self, fun v hv => ?_⟩
    exact (congrArg ThreadPc.vmm (goto_thread_of_ne (hother v hv))).trans (h.owner v hv)
  · intro m id hm
    rcases eq_or_ne m n with rfl | hne
    · obtain rfl := Option.some.inj ((congrArg ThreadPc.vmm goto_thread_self).symm.trans hm)
      exact Nat.lt_succ_self _
    · exact Nat.lt_succ_of_lt (h.fresh m id
        ((congrArg ThreadPc.vmm (goto_thread_of_ne hne)).symm.trans hm))
  · exact fun m q hq => Nat.lt_succ_of_lt (h.sock_fresh m q hq)
  · intro m q hq
    refine List.forall_mem_cons.mpr ⟨fun hid => ?_, h.sock_node m q hq⟩
    exact absurd hid (h.sock_fresh m q hq).ne'
  · exact List.forall_mem_cons.mpr ⟨nofun, h.restored⟩
  · intro m id hm
    have hne : m ≠ n := by
      rintro rfl
      exact absurd (goto_thread_self.symm.trans hm) (by simp)
    have hm' : w.thread m = .loaded id := (goto_thread_of_ne hne).symm.trans hm
    refine List.forall_mem_cons.mpr ⟨fun hid => ?_, h.loaded m id hm'⟩
    exact absurd hid (h.fresh m id (congrArg ThreadPc.vmm hm')).ne'

/-- The thread of a node has its VMM load the snapshot. -/
theorem VmmsOk.load (h : VmmsOk R w) {n : N} {id q : ℕ} {g : G} (hpc : w.thread n = .connected id)
    (hsock : w.sock n = some q) (himage : R.image n = some g) (hlive : ∃ v ∈ w.live, v.id = q) :
    VmmsOk R { w.goto n (.loaded id) with live := setGuest q (some g) w.live } := by
  obtain ⟨v, hv, hid⟩ := hlive
  -- the VMM behind the socket is the one that the thread has spawned
  obtain rfl : id = q := by
    have hvmm := (h.behind hsock hv hid).2
    rw [hpc] at hvmm
    exact Option.some.inj hvmm
  have hset : VmmsOk R { w with live := setGuest id (some g) w.live } :=
    h.change fun u hu hu' =>
      ⟨g, (h.behind hsock hu hu').1 ▸ himage, Relation.ReflTransGen.refl⟩
  refine hset.goto (h.threads n (by simp [hpc])) (congrArg ThreadPc.vmm hpc).symm ?_
  intro id' hid' u hu hu'
  obtain rfl := ThreadPc.loaded.inj hid'
  obtain ⟨u₀, -, hid₀, -, hguest⟩ := mem_setGuest hu
  rw [hguest, if_pos (hid₀.symm.trans hu')]
  rfl

/-! ## The phases -/

/-- All threads have returned. -/
def AllLoaded (R : Restore N G) (w : ResumeWorld N G) : Prop :=
  ∀ n ∈ R.nodes, ∃ id, w.thread n = .loaded id

/-- What the main thread knows where it stands. -/
def PhaseOk (R : Restore N G) (w : ResumeWorld N G) : Prop :=
  match w.phase with
  | .joining todo => (∃ past, R.nodes = past ++ todo ∧ ∀ n ∈ past, ∃ id, w.thread n = .loaded id) ∧
      ∀ n, w.poker n = .started
  | .probing | .writing | .finishing => AllLoaded R w
  | .killing todo => (AllLoaded R w ∧ ∀ n ∈ R.nodes, w.poker n = .returned) ∧
      (R.rounds ≠ none ∧ todo <:+ R.nodes) ∧ ∀ v ∈ w.live, v.node ∈ todo
  | .done => (AllLoaded R w ∧ ∀ n ∈ R.nodes, w.poker n = .returned) ∧
      ∀ k, R.rounds = some k → w.live = [] ∧ w.round = k
  | .died => True

omit [DecidableEq N] in
theorem phaseOk_init (R : Restore N G) (stale : N → Bool) : PhaseOk R (ResumeWorld.init R stale) := by
  unfold ResumeWorld.init PhaseOk
  split_ifs
  · trivial
  · exact ⟨⟨[], rfl, nofun⟩, fun _ => rfl⟩

omit [DecidableEq N] in
/-- Only VMMs are gone, or guests have moved on. -/
theorem PhaseOk.live (h : PhaseOk R w) {live : List (Vmm N G)} (sock : N → Option ℕ)
    (hlive : ∀ v' ∈ live, ∃ v ∈ w.live, v'.node = v.node) :
    PhaseOk R { w with live := live, sock := sock } := by
  unfold PhaseOk at h ⊢
  cases hphase : w.phase with
  | killing todo =>
    rw [hphase] at h
    obtain ⟨hall, hrounds, hnodes⟩ := h
    refine ⟨hall, hrounds, fun v' hv' => ?_⟩
    obtain ⟨v, hv, hnode⟩ := hlive v' hv'
    exact hnode ▸ hnodes v hv
  | done =>
    rw [hphase] at h
    obtain ⟨hall, hover⟩ := h
    refine ⟨hall, fun k hk => ⟨List.eq_nil_iff_forall_not_mem.mpr fun v' hv' => ?_, (hover k hk).2⟩⟩
    obtain ⟨v, hv, -⟩ := hlive v' hv'
    rw [(hover k hk).1] at hv
    cases hv
  | _ =>
    rw [hphase] at h
    exact h

/-- A thread that has not returned moves on. -/
theorem PhaseOk.goto (h : PhaseOk R w) {todo : List N} {n : N} {pc : ThreadPc}
    (hphase : w.phase = .joining todo) (hpc : ∀ id, w.thread n ≠ .loaded id)
    (w' : ResumeWorld N G) (hphase' : w'.phase = w.phase)
    (hthread : w'.thread = (w.goto n pc).thread) (hpoker : w'.poker = w.poker) : PhaseOk R w' := by
  unfold PhaseOk at h ⊢
  rw [hphase', hphase]
  rw [hphase] at h
  obtain ⟨⟨past, hnodes, hpast⟩, hstarted⟩ := h
  refine ⟨⟨past, hnodes, fun m hm => ?_⟩, fun m => by rw [hpoker]; exact hstarted m⟩
  obtain ⟨id, hid⟩ := hpast m hm
  have hne : m ≠ n := by
    rintro rfl
    exact hpc id hid
  exact ⟨id, by rw [hthread, goto_thread_of_ne hne, hid]⟩

omit [DecidableEq N] in
theorem node_of_mem_setGuest {id : ℕ} {guest : Option G} {live : List (Vmm N G)} :
    ∀ v' ∈ setGuest id guest live, ∃ v ∈ live, v'.node = v.node := by
  intro v' hv'
  obtain ⟨v, hv, -, hnode, -⟩ := mem_setGuest hv'
  exact ⟨v, hv, hnode⟩

theorem phaseOk_step (hv : VmmsOk R w) (h : PhaseOk R w) (hs : Resumes R w act w') :
    PhaseOk R w' := by
  have hphaseOk := h
  unfold PhaseOk at h
  cases hs with
  | unlink hphase hpc => exact hphaseOk.goto hphase (by simp [hpc]) _ rfl rfl rfl
  | spawn hphase hpc => exact hphaseOk.goto hphase (by simp [hpc]) _ rfl rfl rfl
  | seen hphase hpc => exact hphaseOk.goto hphase (by simp [hpc]) _ rfl rfl rfl
  | load hphase hpc => exact hphaseOk.goto hphase (by simp [hpc]) _ rfl rfl rfl
  | lost => trivial
  | dies => trivial
  | @join n todo id hphase hpc =>
    rw [hphase] at h
    obtain ⟨⟨past, hnodes, hpast⟩, hstarted⟩ := h
    refine ⟨⟨past ++ [n], by rw [hnodes, List.append_assoc]; rfl, fun m hm => ?_⟩, hstarted⟩
    rcases List.mem_append.mp hm with hm | hm
    · exact hpast m hm
    · obtain rfl := List.mem_singleton.mp hm
      exact ⟨id, hpc⟩
  | joined hphase =>
    rw [hphase] at h
    obtain ⟨⟨past, hnodes, hpast⟩, -⟩ := h
    rw [List.append_nil] at hnodes
    exact fun n hn => hpast n (hnodes ▸ hn)
  | poke hphase =>
    unfold PhaseOk
    rcases hphase with hphase | hphase | hphase <;> rw [hphase] at h ⊢ <;> exact h
  | probe hphase =>
    rw [hphase] at h
    unfold PhaseOk
    split_ifs <;> exact h
  | write hphase =>
    rw [hphase] at h
    exact h
  | finish hphase hpokers =>
    rw [hphase] at h
    unfold PhaseOk
    by_cases hrounds : R.rounds = none
    · rw [if_pos hrounds]
      exact ⟨⟨h, hpokers⟩, fun k hk => by rw [hrounds] at hk; cases hk⟩
    · rw [if_neg hrounds]
      refine ⟨⟨h, hpokers⟩, ⟨hrounds, List.suffix_rfl⟩, fun v hmem =>
        hv.threads v.node fun hstarted => ?_⟩
      have howner := hv.owner v hmem
      rw [hstarted] at howner
      cases howner
  | @kill n todo id hphase hpc =>
    rw [hphase] at h
    obtain ⟨hall, ⟨hrounds, hsuffix⟩, hnodes⟩ := h
    refine ⟨hall, ⟨hrounds, (List.suffix_cons n todo).trans hsuffix⟩, fun v hmem => ?_⟩
    obtain ⟨hmem, hne⟩ := mem_dropVmm.mp hmem
    refine (List.mem_cons.mp (hnodes v hmem)).resolve_left fun hnode => hne ?_
    have howner := hv.owner v hmem
    rw [hnode, hpc] at howner
    exact (Option.some.inj howner).symm
  | last hphase hround =>
    rw [hphase] at h
    obtain ⟨hall, -, hnodes⟩ := h
    refine ⟨hall, fun k hk => ⟨List.eq_nil_iff_forall_not_mem.mpr fun v hmem => ?_, ?_⟩⟩
    · exact absurd (hnodes v hmem) (by simp)
    · exact Option.some.inj (hround.symm.trans hk)
  | again => exact ⟨⟨[], rfl, nofun⟩, fun _ => rfl⟩
  | bind hmem => exact hphaseOk.live _ fun v hv => ⟨v, hv, rfl⟩
  | guest hmem => exact hphaseOk.live w.sock node_of_mem_setGuest
  | crash => exact hphaseOk.live w.sock fun v hv => ⟨v, (mem_dropVmm.mp hv).1, rfl⟩

theorem vmmsOk_step (hv : VmmsOk R w) (h : PhaseOk R w) (hs : Resumes R w act w') :
    VmmsOk R w' := by
  cases hs with
  | @unlink todo n hphase hpc hn =>
    refine (hv.unlink n).goto hn ?_ nofun
    rw [show w.thread n = .started from hpc]
    rfl
  | spawn hphase hpc => exact hv.spawn hpc
  | @seen todo n id hphase hpc =>
    exact hv.goto (hv.threads n (by simp [hpc])) (congrArg ThreadPc.vmm hpc).symm nofun
  | load hphase hpc hok hsock himage hlive => exact hv.load hpc hsock himage hlive
  | @lost n a q g hok hsock himage =>
    refine (hv.phase .died w.poker w.round).change fun v hmem hid => ?_
    exact ⟨g, (hv.behind hsock hmem hid).1 ▸ himage, Relation.ReflTransGen.refl⟩
  | dies => exact hv.phase .died w.poker w.round
  | join => exact hv.phase _ w.poker w.round
  | joined => exact hv.phase _ w.poker w.round
  | poke => exact hv.phase w.phase _ w.round
  | probe => exact hv.phase _ w.poker w.round
  | write => exact hv.phase _ w.poker w.round
  | finish => exact hv.phase _ w.poker w.round
  | @kill n todo id => exact ((hv.drop id).unlink n).phase (.killing todo) w.poker w.round
  | last => exact hv.phase _ w.poker w.round
  | again hphase =>
    -- every VMM of the round is dead
    unfold PhaseOk at h
    rw [hphase] at h
    have hnone : ∀ v, v ∉ w.live := fun v hmem => absurd (h.2.2 v hmem) (by simp)
    exact ⟨hv.nodup, fun _ h => absurd rfl h, fun v hmem => absurd hmem (hnone v), nofun,
      hv.sock_fresh, hv.sock_node, hv.restored, nofun⟩
  | @bind v hmem hsock =>
    have hbound : ∀ m q, Function.update w.sock v.node (some v.id) m = some q →
        m = v.node ∧ q = v.id ∨ w.sock m = some q := by
      intro m q hq
      rcases eq_or_ne m v.node with rfl | hne
      · rw [Function.update_self] at hq
        exact Or.inl ⟨rfl, (Option.some.inj hq).symm⟩
      · rw [Function.update_of_ne hne] at hq
        exact Or.inr hq
    refine ⟨hv.nodup, hv.threads, hv.owner, hv.fresh, fun m q hq => ?_, fun m q hq u hu hid => ?_,
      hv.restored, hv.loaded⟩
    · obtain ⟨-, rfl⟩ | hq := hbound m q hq
      · exact hv.fresh _ _ (hv.owner v hmem)
      · exact hv.sock_fresh m q hq
    · obtain ⟨rfl, rfl⟩ | hq := hbound m q hq
      · exact congrArg Vmm.node (List.inj_on_of_nodup_map hv.nodup hu hmem hid)
      · exact hv.sock_node m q hq u hu hid
  | @guest v memory hmem hmoves =>
    refine hv.change fun u hu hid => ?_
    obtain rfl : u = v := List.inj_on_of_nodup_map hv.nodup hu hmem hid
    cases hg : u.guest with
    | none =>
      rw [hg] at hmoves
      cases hmoves
    | some g =>
      rw [hg] at hmoves
      obtain ⟨g₀, himage, hreach⟩ := hv.restored u hu g hg
      exact ⟨g₀, himage, hreach.tail hmoves⟩
  | @crash id => exact hv.drop id

/-! ## What a run has done -/

namespace ResumeAct

/-- A load of the node that its thread sees succeed. -/
def loads (n : N) : ResumeAct N G → Bool
  | .load m a => m = n && a.outcome.ok
  | _ => false

/-- What the thread does that pokes the node. -/
def isPoke (n : N) (e : PokeEvent) : ResumeAct N G → Bool
  | .poke m f => m = n && f = e
  | _ => false

/-- A probe that the API server answers. -/
def isUp : ResumeAct N G → Bool
  | .probe up => up
  | _ => false

/-- A write that is committed. -/
def commits : ResumeAct N G → Bool
  | .write committed => committed
  | _ => false

/-- A VMM ends by itself. -/
def IsCrash : ResumeAct N G → Prop
  | .crash _ => True
  | _ => False

end ResumeAct

/-- The thread has returned. -/
def ThreadPc.isLoaded : ThreadPc → Bool
  | .loaded _ => true
  | _ => false

/-- The API server has answered in this round. -/
def ResumePhase.answered : ResumePhase N → Bool
  | .joining _ | .probing => false
  | _ => true

/-- There is no write to wait for any more in this round. -/
def ResumePhase.settled : ResumePhase N → Bool
  | .joining _ | .probing | .writing => false
  | _ => true

/-- What there has been in a run: loads that succeed and pokes by node, probes and writes that
    succeed. -/
structure Tally (N : Type) where
  loads : N → ℕ
  pokes : N → PokeEvent → ℕ
  probes : ℕ
  writes : ℕ

variable {t : Tally N}

/-- One more step. -/
def Tally.add (t : Tally N) (act : ResumeAct N G) : Tally N where
  loads n := t.loads n + (act.loads n).toNat
  pokes n e := t.pokes n e + (act.isPoke n e).toNat
  probes := t.probes + act.isUp.toNat
  writes := t.writes + act.commits.toNat

/-- The tally of a run. -/
def tally (acts : List (ResumeAct N G)) : Tally N where
  loads n := acts.countP (·.loads n)
  pokes n e := acts.countP (·.isPoke n e)
  probes := acts.countP (·.isUp)
  writes := acts.countP (·.commits)

/-- The pokes of a round that a thread has sent or missed. -/
def Poker.spent : Poker → ℕ
  | .started => 0
  | .sending k => k
  | .returned => 3

/-- The pokes that are sent, missed for want of a socket, and missed by a panic. -/
theorem Poker.spent_next {p p' : Poker} {e : PokeEvent} (h : p.next e = some p') :
    p.spent + (decide (PokeEvent.send = e)).toNat + 3 * (decide (PokeEvent.bind false = e)).toNat ≤
        p'.spent ∧
      p'.spent ≤ p.spent + (decide (PokeEvent.send = e)).toNat +
        3 * ((decide (PokeEvent.bind false = e)).toNat + (decide (PokeEvent.panic = e)).toNat) := by
  revert h
  cases p with
  | started => cases e with
    | bind ok => cases ok <;> rintro ⟨⟩ <;> decide
    | send => rintro ⟨⟩
    | panic => rintro ⟨⟩
  | sending k => cases e with
    | bind ok => rintro ⟨⟩
    | send =>
      rintro ⟨⟩
      revert k
      decide
    | panic =>
      rintro ⟨⟩
      revert k
      decide
  | returned => cases e <;> rintro ⟨⟩

/-- How often every node was loaded and poked, and the probes succeeded, by the rounds that have
    gone by and what has been done of this one. A round in which a thread gets no socket has no
    pokes, and one in which it panics has less than three. -/
structure Counts (R : Restore N G) (t : Tally N) (w : ResumeWorld N G) : Prop where
  loads : ∀ n ∈ R.nodes, t.loads n + 1 = w.round + (w.thread n).isLoaded.toNat
  pokes : ∀ n ∈ R.nodes,
    t.pokes n .send + 3 * t.pokes n (.bind false) + 3 ≤ 3 * w.round + (w.poker n).spent ∧
      3 * w.round + (w.poker n).spent ≤
        t.pokes n .send + 3 * (t.pokes n (.bind false) + t.pokes n .panic) + 3
  probes : t.probes + 1 = w.round + w.phase.answered.toNat
  writes : R.multiServer = true → t.writes + 1 = w.round + w.phase.settled.toNat

theorem counts_init (R : Restore N G) (stale : N → Bool)
    (hlive : (ResumeWorld.init R stale).phase ≠ .died) : Counts R (tally ([] : List (ResumeAct N G))) (ResumeWorld.init R stale) := by
  unfold ResumeWorld.init at hlive ⊢
  split_ifs at hlive ⊢
  · exact absurd rfl hlive
  · exact ⟨fun _ _ => rfl, fun _ _ => ⟨le_rfl, le_rfl⟩, rfl, fun _ => rfl⟩

/-- A step that none of the counters sees. -/
theorem Counts.quiet (h : Counts R t w) (hloads : ∀ n, act.loads n = false)
    (hpokes : ∀ n e, act.isPoke n e = false) (hup : act.isUp = false) (hcommits : act.commits = false)
    (hthread : ∀ n, (w'.thread n).isLoaded = (w.thread n).isLoaded) (hpoker : w'.poker = w.poker)
    (hround : w'.round = w.round) (hanswered : w'.phase.answered = w.phase.answered)
    (hsettled : w'.phase.settled = w.phase.settled) : Counts R (t.add act) w' where
  loads n hn := by
    show t.loads n + (act.loads n).toNat + 1 = _
    rw [hloads, hthread, hround]
    exact h.loads n hn
  pokes n hn := by
    simp only [Tally.add, hpokes, Bool.toNat_false, add_zero, hpoker, hround]
    exact h.pokes n hn
  probes := by
    show t.probes + act.isUp.toNat + 1 = _
    rw [hup, hround, hanswered]
    exact h.probes
  writes hmulti := by
    show t.writes + act.commits.toNat + 1 = _
    rw [hcommits, hround, hsettled]
    exact h.writes hmulti

/-- A thread that does not return moves on. -/
theorem isLoaded_goto {n : N} {pc : ThreadPc} (hpc : (w.thread n).isLoaded = pc.isLoaded) (m : N) :
    ((w.goto n pc).thread m).isLoaded = (w.thread m).isLoaded := by
  rcases eq_or_ne m n with rfl | hne
  · rw [goto_thread_self, hpc]
  · rw [goto_thread_of_ne hne]

theorem counts_step (h : Counts R t w) (hphaseOk : PhaseOk R w) (hs : Resumes R w act w')
    (hgoing : w'.phase ≠ .died) : Counts R (t.add act) w' := by
  unfold PhaseOk at hphaseOk
  cases hs with
  | @unlink todo n hphase hpc =>
    exact h.quiet (fun _ => rfl) (fun _ _ => rfl) rfl rfl
      (isLoaded_goto (by rw [hpc]; rfl)) rfl rfl rfl rfl
  | @spawn todo n hphase hpc =>
    exact h.quiet (fun _ => rfl) (fun _ _ => rfl) rfl rfl
      (isLoaded_goto (by rw [hpc]; rfl)) rfl rfl rfl rfl
  | @seen todo n id hphase hpc =>
    exact h.quiet (fun _ => rfl) (fun _ _ => rfl) rfl rfl
      (isLoaded_goto (by rw [hpc]; rfl)) rfl rfl rfl rfl
  | @load todo n id a q g hphase hpc hok =>
    refine ⟨fun m hm => ?_, h.pokes, h.probes, h.writes⟩
    have hcount := h.loads m hm
    show t.loads m + ((ResumeAct.load n a : ResumeAct N G).loads m).toNat + 1 =
      w.round + ((w.goto n (.loaded id)).thread m).isLoaded.toNat
    rcases eq_or_ne m n with rfl | hne
    · rw [hpc] at hcount
      have hact : (ResumeAct.load m a : ResumeAct N G).loads m = true := by
        simp [ResumeAct.loads, hok]
      rw [hact, goto_thread_self]
      simp only [ThreadPc.isLoaded, Bool.toNat_false, Bool.toNat_true] at hcount ⊢
      omega
    · have hact : (ResumeAct.load n a : ResumeAct N G).loads m = false := by
        simp [ResumeAct.loads, hne.symm]
      rw [hact, goto_thread_of_ne hne]
      exact hcount
  | lost => exact absurd rfl hgoing
  | dies => exact absurd rfl hgoing
  | join hphase =>
    exact h.quiet (fun _ => rfl) (fun _ _ => rfl) rfl rfl (fun _ => rfl) rfl rfl (by rw [hphase]; rfl)
      (by rw [hphase]; rfl)
  | joined hphase =>
    exact h.quiet (fun _ => rfl) (fun _ _ => rfl) rfl rfl (fun _ => rfl) rfl rfl (by rw [hphase]; rfl)
      (by rw [hphase]; rfl)
  | @poke n e p hphase hnext =>
    refine ⟨h.loads, fun m hm => ?_, h.probes, h.writes⟩
    have hcount := h.pokes m hm
    simp only [Tally.add, ResumeAct.isPoke]
    rcases eq_or_ne m n with rfl | hne
    · have hspent := Poker.spent_next hnext
      simp only [Function.update_self, decide_true, Bool.true_and, eq_comm (a := e)]
      omega
    · simp only [Function.update_of_ne hne, decide_eq_false hne.symm, Bool.false_and,
        Bool.toNat_false, add_zero]
      exact hcount
  | probe hphase =>
    have hprobes := h.probes
    have hwrites := h.writes
    rw [hphase] at hprobes hwrites
    refine ⟨h.loads, h.pokes, ?_, fun hmulti => ?_⟩
    · show t.probes + 1 + 1 = _
      have hanswered : (if R.multiServer = true then ResumePhase.writing else .finishing :
          ResumePhase N).answered = true := by split_ifs <;> rfl
      rw [hanswered]
      simp only [ResumePhase.answered, Bool.toNat_false, Bool.toNat_true] at hprobes ⊢
      omega
    · rw [if_pos hmulti]
      exact hwrites hmulti
  | write hphase =>
    have hprobes := h.probes
    have hwrites := h.writes
    rw [hphase] at hprobes hwrites
    refine ⟨h.loads, h.pokes, hprobes, fun hmulti => ?_⟩
    have hcount := hwrites hmulti
    show t.writes + 1 + 1 = w.round + 1
    simp only [ResumePhase.settled, Bool.toNat_false] at hcount
    omega
  | finish hphase =>
    refine h.quiet (fun _ => rfl) (fun _ _ => rfl) rfl rfl (fun _ => rfl) rfl rfl ?_ ?_
    · rw [hphase]
      split_ifs <;> rfl
    · rw [hphase]
      split_ifs <;> rfl
  | kill hphase =>
    exact h.quiet (fun _ => rfl) (fun _ _ => rfl) rfl rfl (fun _ => rfl) rfl rfl (by rw [hphase]; rfl)
      (by rw [hphase]; rfl)
  | last hphase =>
    exact h.quiet (fun _ => rfl) (fun _ _ => rfl) rfl rfl (fun _ => rfl) rfl rfl (by rw [hphase]; rfl)
      (by rw [hphase]; rfl)
  | again hphase =>
    -- the counters of the round are full
    have hprobes := h.probes
    have hwrites := h.writes
    rw [hphase] at hprobes hwrites hphaseOk
    obtain ⟨⟨hloaded, hpoked⟩, -⟩ := hphaseOk
    refine ⟨fun n hn => ?_, fun n hn => ?_, hprobes, hwrites⟩
    · obtain ⟨id, hid⟩ := hloaded n hn
      have hcount := h.loads n hn
      rw [hid] at hcount
      exact hcount
    · have hcount := h.pokes n hn
      rw [hpoked n hn, Poker.spent] at hcount
      show _ ≤ 3 * (w.round + 1) + 0 ∧ 3 * (w.round + 1) + 0 ≤ _
      simp only [Tally.add, ResumeAct.isPoke, Bool.toNat_false, add_zero]
      omega
  | bind => exact h.quiet (fun _ => rfl) (fun _ _ => rfl) rfl rfl (fun _ => rfl) rfl rfl rfl rfl
  | guest => exact h.quiet (fun _ => rfl) (fun _ _ => rfl) rfl rfl (fun _ => rfl) rfl rfl rfl rfl
  | crash => exact h.quiet (fun _ => rfl) (fun _ _ => rfl) rfl rfl (fun _ => rfl) rfl rfl rfl rfl

omit [DecidableEq N] in
/-- Every VMM is still there when the guest of one changes. -/
theorem exists_mem_setGuest {id : ℕ} {guest : Option G} {live : List (Vmm N G)} {v : Vmm N G}
    (hv : v ∈ live) : ∃ v' ∈ setGuest id guest live, v'.id = v.id ∧ v'.node = v.node := by
  refine ⟨_, List.mem_map_of_mem hv, ?_⟩
  split_ifs <;> exact ⟨rfl, rfl⟩

/-- The VMM of the node is not killed in this round yet. -/
def Standing (R : Restore N G) (w : ResumeWorld N G) (n : N) : Prop :=
  match w.phase with
  | .killing todo => n ∈ todo
  | .done => R.rounds = none
  | .died => False
  | _ => True

/-- The VMM of every thread is alive until its round kills it. -/
def Alive (R : Restore N G) (w : ResumeWorld N G) : Prop :=
  ∀ n id, (w.thread n).vmm = some id → Standing R w n → ∃ v ∈ w.live, v.id = id ∧ v.node = n

omit [DecidableEq N] in
/-- A step after which every thread that had a VMM still has it. -/
theorem Alive.keep (h : Alive R w) (hthread : ∀ n, (w'.thread n).vmm = (w.thread n).vmm)
    (hstanding : ∀ n, n ∈ R.nodes → Standing R w' n → Standing R w n)
    (hthreads : ∀ n, w.thread n ≠ .started → n ∈ R.nodes)
    (hlive : ∀ v ∈ w.live, ∃ v' ∈ w'.live, v'.id = v.id ∧ v'.node = v.node) : Alive R w' := by
  intro n id hid hstands
  rw [hthread] at hid
  have hn : n ∈ R.nodes := hthreads n fun hstarted => by
    rw [hstarted] at hid
    cases hid
  obtain ⟨v, hv, rfl, rfl⟩ := h n id hid (hstanding n hn hstands)
  exact hlive v hv

/-- The VMM of a thread that moves on is the one it had. -/
theorem vmm_goto {n : N} {pc : ThreadPc} (hpc : pc.vmm = (w.thread n).vmm) (m : N) :
    ((w.goto n pc).thread m).vmm = (w.thread m).vmm := by
  rcases eq_or_ne m n with rfl | hne
  · rw [goto_thread_self, hpc]
  · rw [goto_thread_of_ne hne]

theorem alive_step (hv : VmmsOk R w) (hphaseOk : PhaseOk R w) (h : Alive R w)
    (hs : Resumes R w act w') (hcrash : ¬ act.IsCrash) : Alive R w' := by
  have hsame : ∀ v ∈ w.live, ∃ v' ∈ w.live, v'.id = v.id ∧ v'.node = v.node :=
    fun v hv => ⟨v, hv, rfl, rfl⟩
  have hset : ∀ (id : ℕ) (guest : Option G), ∀ v ∈ w.live, ∃ v' ∈ setGuest id guest w.live,
      v'.id = v.id ∧ v'.node = v.node := fun _ _ v hv => exists_mem_setGuest hv
  -- the main thread moves on, and kills nothing
  have hmoves : ∀ phase : ResumePhase N,
      (∀ n, n ∈ R.nodes → Standing R { w with phase := phase } n → Standing R w n) →
      Alive R { w with phase := phase } := fun phase hstands =>
    h.keep (fun _ => rfl) hstands hv.threads hsame
  cases hs with
  | @unlink todo n hphase hpc =>
    exact h.keep (vmm_goto (by rw [hpc]; rfl)) (fun _ _ => id) hv.threads hsame
  | @spawn todo n hphase hpc =>
    intro m id hid hstands
    rcases eq_or_ne m n with rfl | hne
    · obtain rfl := Option.some.inj ((congrArg ThreadPc.vmm goto_thread_self).symm.trans hid)
      exact ⟨_, List.mem_cons_self, rfl, rfl⟩
    · obtain ⟨v, hmem, hvid⟩ := h m id ((congrArg ThreadPc.vmm (goto_thread_of_ne hne)).symm.trans hid)
        hstands
      exact ⟨v, List.mem_cons_of_mem _ hmem, hvid⟩
  | @seen todo n _ hphase hpc =>
    exact h.keep (vmm_goto (by rw [hpc]; rfl)) (fun _ _ => id) hv.threads hsame
  | @load todo n _ a q g hphase hpc =>
    exact h.keep (vmm_goto (by rw [hpc]; rfl)) (fun _ _ => id) hv.threads (hset q _)
  | lost => exact fun _ _ _ hstands => hstands.elim
  | dies => exact fun _ _ _ hstands => hstands.elim
  | join hphase => exact hmoves _ fun n _ _ => by rw [Standing, hphase]; trivial
  | joined hphase => exact hmoves _ fun n _ _ => by rw [Standing, hphase]; trivial
  | poke => exact h.keep (fun _ => rfl) (fun _ _ => id) hv.threads hsame
  | probe hphase => exact hmoves _ fun n _ _ => by rw [Standing, hphase]; trivial
  | write hphase => exact hmoves _ fun n _ _ => by rw [Standing, hphase]; trivial
  | finish hphase => exact hmoves _ fun n _ _ => by rw [Standing, hphase]; trivial
  | @kill n todo id hphase hpc =>
    unfold PhaseOk at hphaseOk
    rw [hphase] at hphaseOk
    obtain ⟨-, ⟨-, hsuffix⟩, -⟩ := hphaseOk
    have hnodup : (n :: todo).Nodup := R.nodup.sublist hsuffix.sublist
    have hstanding : ∀ m ∈ n :: todo, Standing R w m := fun m hm => by
      rw [Standing, hphase]
      exact hm
    intro m id' hid' hm
    obtain ⟨v, hmem, rfl, rfl⟩ := h m id' hid' (hstanding m (List.mem_cons_of_mem n hm))
    refine ⟨v, mem_dropVmm.mpr ⟨hmem, ?_⟩, rfl, rfl⟩
    rintro rfl
    -- the VMM that is killed is the one of its own node
    obtain ⟨u, hu, huid, rfl⟩ := h n v.id (congrArg ThreadPc.vmm hpc) (hstanding n List.mem_cons_self)
    obtain rfl : u = v := List.inj_on_of_nodup_map hv.nodup hu hmem huid
    exact (List.nodup_cons.mp hnodup).1 hm
  | last hphase hround =>
    refine hmoves .done fun n _ hstands => ?_
    have hnone : R.rounds = none := hstands
    rw [hround] at hnone
    cases hnone
  | again => exact fun _ _ hid => by cases hid
  | bind => exact h.keep (fun _ => rfl) (fun _ _ => id) hv.threads hsame
  | guest => exact h.keep (fun _ => rfl) (fun _ _ => id) hv.threads (hset _ _)
  | crash => exact absurd trivial hcrash

/-! ## Runs -/

omit [DecidableEq N] in
theorem countP_snoc (p : ResumeAct N G → Bool) (acts : List (ResumeAct N G)) (act : ResumeAct N G) :
    (acts ++ [act]).countP p = acts.countP p + (p act).toNat := by
  rw [List.countP_append, List.countP_singleton]
  cases p act <;> rfl

theorem tally_snoc (acts : List (ResumeAct N G)) (act : ResumeAct N G) :
    tally (acts ++ [act]) = (tally acts).add act := by
  simp only [tally, Tally.add, countP_snoc]

/-- What a run reaches. -/
structure RunOk (R : Restore N G) (acts : List (ResumeAct N G)) (w : ResumeWorld N G) : Prop where
  vmms : VmmsOk R w
  phase : PhaseOk R w
  counts : w.phase ≠ .died → Counts R (tally acts) w
  alive : (∀ act ∈ acts, ¬ act.IsCrash) → Alive R w
  round : R.rounds = none → w.round = 1

theorem runOk_step (h : RunOk R acts w) (hs : Resumes R w act w') : RunOk R (acts ++ [act]) w' where
  vmms := vmmsOk_step h.vmms h.phase hs
  phase := phaseOk_step h.vmms h.phase hs
  counts hgoing := by
    have hbefore : w.phase ≠ .died := fun hdied => hgoing (hs.died hdied)
    rw [tally_snoc]
    exact counts_step (h.counts hbefore) h.phase hs hgoing
  alive hnone := by
    refine alive_step h.vmms h.phase (h.alive fun b hb => hnone b ?_) hs (hnone act ?_)
    · exact List.mem_append_left _ hb
    · exact List.mem_append_right _ List.mem_cons_self
  round hrounds := by
    have hround := h.round hrounds
    cases hs <;> try exact hround
    case again hphase =>
      have hphaseOk := h.phase
      unfold PhaseOk at hphaseOk
      rw [hphase] at hphaseOk
      exact absurd hrounds hphaseOk.2.1.1

theorem run_ok {stale : N → Bool} (h : exec (resumeStep R) (ResumeWorld.init R stale) acts = some w) :
    RunOk R acts w := by
  induction acts using List.reverseRecOn generalizing w with
  | nil =>
    obtain rfl := Option.some.inj h
    exact ⟨vmmsOk_init R stale, phaseOk_init R stale, counts_init R stale, fun _ _ _ => nofun,
      fun _ => rfl⟩
  | append_singleton acts act ih =>
    rw [exec_append] at h
    obtain ⟨u, hu, hstep⟩ := Option.bind_eq_some_iff.mp h
    obtain ⟨v, hv, hend⟩ := exec_cons_iff.mp hstep
    obtain rfl := Option.some.inj hend
    exact runOk_step (ih hu) (resumeStep_resumes hv)

/-- Every thread has returned, and no VMM is killed yet. -/
theorem RunOk.whole (h : RunOk R acts w) (hloaded : AllLoaded R w)
    (hstands : ∀ n ∈ R.nodes, Standing R w n) (hnone : ∀ act ∈ acts, ¬ act.IsCrash) :
    ∀ n ∈ R.nodes, ∃ v ∈ w.live, v.node = n ∧ v.guest.isSome = true := by
  intro n hn
  obtain ⟨id, hid⟩ := hloaded n hn
  obtain ⟨v, hv, rfl, rfl⟩ := h.alive hnone n id (congrArg ThreadPc.vmm hid) (hstands n hn)
  exact ⟨v, hv, rfl, h.vmms.loaded _ _ hid v hv rfl⟩

/-- A command that has succeeded has done every round as often as it was to. -/
theorem RunOk.done (h : RunOk R acts w) (hdone : w.phase = .done) :
    (∀ n ∈ R.nodes, acts.countP (·.loads n) = R.rounds.getD 1 ∧
      acts.countP (·.isPoke n .send) + 3 * acts.countP (·.isPoke n (.bind false)) ≤
        3 * R.rounds.getD 1 ∧
      3 * R.rounds.getD 1 ≤ acts.countP (·.isPoke n .send) +
        3 * (acts.countP (·.isPoke n (.bind false)) + acts.countP (·.isPoke n .panic))) ∧
    acts.countP (·.isUp) = R.rounds.getD 1 ∧
    (R.multiServer = true → acts.countP (·.commits) = R.rounds.getD 1) ∧
    (R.rounds ≠ none → w.live = []) := by
  have hcounts := h.counts (by simp [hdone])
  have hphaseOk := h.phase
  unfold PhaseOk at hphaseOk
  rw [hdone] at hphaseOk
  obtain ⟨⟨hloaded, hpoked⟩, hover⟩ := hphaseOk
  have hround : R.rounds.getD 1 = w.round := by
    cases hrounds : R.rounds with
    | none => exact (h.round hrounds).symm
    | some k => exact (hover k hrounds).2.symm
  have hprobes := hcounts.probes
  have hwrites := hcounts.writes
  rw [hdone] at hprobes hwrites
  rw [hround]
  refine ⟨fun n hn => ⟨?_, ?_⟩, Nat.succ_injective hprobes,
    fun hmulti => Nat.succ_injective (hwrites hmulti), fun hne => ?_⟩
  · obtain ⟨id, hid⟩ := hloaded n hn
    have hloads := hcounts.loads n hn
    rw [hid] at hloads
    exact Nat.succ_injective hloads
  · have hpokes := hcounts.pokes n hn
    rw [hpoked n hn, Poker.spent] at hpokes
    exact ⟨Nat.le_of_add_le_add_right hpokes.1, Nat.le_of_add_le_add_right hpokes.2⟩
  · obtain ⟨k, hk⟩ := Option.ne_none_iff_exists'.mp hne
    exact (hover k hk).1

/-- A mesh that was taken and is resumed goes on from one moment. In every run of `mesh-resume` and
    of `mesh-cycle` over the snapshots of a `mesh-take`, in any interleaving of the threads, the
    VMMs and their guests, with VMMs that end and calls that fail: no node has two VMMs at a time;
    there was one moment of the taken mesh, with all its VMs paused, from whose memories all guests
    have come by their own steps only; when the API server is probed, and after `mesh-resume` has
    succeeded, every node has its VMM with its guest, unless one ended by itself; and a command that
    succeeds has loaded every node once a round, poked it three times in each round in which it got
    a socket for that (unless the clock was before the epoch), seen the API server answer and, with
    several servers, a write committed, and a cycle leaves no VMM behind. -/
theorem meshResume_restores {memory : N → G} {takes : List (WorldAct N G)} {taken : MeshWorld N G}
    {stale : N → Bool} (htake : exec (worldStep R.nodes) (MeshWorld.init memory) takes = some taken)
    (hsaved : taken.mesh.phase.pending = some []) (himage : R.image = taken.image)
    (hrun : exec (resumeStep R) (ResumeWorld.init R stale) acts = some w) :
    ((w.live.map Vmm.node).Nodup ∧ ∀ v ∈ w.live, v.node ∈ R.nodes) ∧
    (∃ before after t, takes = before ++ after ∧
      exec (worldStep R.nodes) (MeshWorld.init memory) before = some t ∧
      (∀ n ∈ R.nodes, t.mesh.vm n = .paused) ∧
      ∀ v ∈ w.live, ∀ g, v.guest = some g →
        Relation.ReflTransGen (fun a b => R.moves a b = true) (t.guest v.node) g) ∧
    ((∀ act ∈ acts, ¬ act.IsCrash) →
      (∃ up w', resumeStep R w (.probe up) = some w') ∨ (w.phase = .done ∧ R.rounds = none) →
      ∀ n ∈ R.nodes, ∃ v ∈ w.live, v.node = n ∧ v.guest.isSome = true) ∧
    (w.phase = .done →
      (∀ n ∈ R.nodes, acts.countP (·.loads n) = R.rounds.getD 1 ∧
        acts.countP (·.isPoke n .send) + 3 * acts.countP (·.isPoke n (.bind false)) ≤
          3 * R.rounds.getD 1 ∧
        3 * R.rounds.getD 1 ≤ acts.countP (·.isPoke n .send) +
          3 * (acts.countP (·.isPoke n (.bind false)) + acts.countP (·.isPoke n .panic))) ∧
      acts.countP (·.isUp) = R.rounds.getD 1 ∧
      (R.multiServer = true → acts.countP (·.commits) = R.rounds.getD 1) ∧
      (R.rounds ≠ none → w.live = [])) := by
  have hok := run_ok hrun
  have hmem : ∀ v ∈ w.live, v.node ∈ R.nodes := fun v hv => hok.vmms.threads v.node fun hstarted => by
    have howner := hok.vmms.owner v hv
    rw [hstarted] at howner
    cases howner
  refine ⟨⟨hok.vmms.nodup_node, hmem⟩, ?_, fun hnone hwhole => ?_, hok.done⟩
  · obtain ⟨hpausing, -⟩ | ⟨before, after, t, htakes, ht, hstopped, -, hcut⟩ | hdead := run_cut htake
    · obtain hphase | ⟨-, todo, hphase, -, -⟩ := hpausing
      · simp [hphase, MeshPhase.pending] at hsaved
      · simp [hphase, MeshPhase.pending] at hsaved
    · obtain ⟨todo, htodo, hwritten⟩ := hcut.written
      obtain rfl : [] = todo := Option.some.inj (hsaved.symm.trans htodo)
      refine ⟨before, after, t, htakes, ht, hstopped.2, fun v hv g hg => ?_⟩
      obtain ⟨g₀, hg₀, hreach⟩ := hok.vmms.restored v hv g hg
      rw [himage, hwritten v.node (hmem v hv) (by simp)] at hg₀
      rwa [Option.some.inj hg₀]
    · rw [show taken.mesh.phase = .died from hdead] at hsaved
      simp [MeshPhase.pending] at hsaved
  · have hphaseOk := hok.phase
    unfold PhaseOk at hphaseOk
    obtain ⟨up, w', hprobe⟩ | ⟨hdone, hrounds⟩ := hwhole
    · have hphase : w.phase = .probing := by
        simp only [resumeStep] at hprobe
        split at hprobe
        · assumption
        · cases hprobe
      rw [hphase] at hphaseOk
      exact hok.whole hphaseOk (fun n _ => by rw [Standing, hphase]; trivial) hnone
    · rw [hdone] at hphaseOk
      exact hok.whole hphaseOk.1.1 (fun n _ => by rw [Standing, hdone]; exact hrounds) hnone

/-- The two counting guests again: the first node is the server. -/
def countingRestore : Restore Bool ℕ where
  nodes := [true, false]
  nodup := by decide
  isServer n := n
  image := countingEnd.image
  moves a b := b = a + 1
  rounds := none

/-- The second node comes up first, and its guest counts before the other is loaded. -/
def resumingRun : List (ResumeAct Bool ℕ) :=
  [.unlink false, .unlink true, .spawn false true, .spawn true true, .bind 1, .seen false true,
    .load false .noContent, .guest 1 6, .bind 2, .seen true true, .load true .noContent, .join,
    .join, .join, .poke true (.bind true), .poke true .send, .probe true, .poke false (.bind false),
    .poke true .send, .guest 2 2, .poke true .send, .finish]

/-- Both guests are there, and have counted on from the moment of the cut. -/
theorem meshResume_restores_counting :
    ∃ w t, exec (resumeStep countingRestore) (ResumeWorld.init countingRestore fun _ => true)
        resumingRun = some w ∧
      (∀ n ∈ [true, false], (t : MeshWorld Bool ℕ).mesh.vm n = .paused) ∧
      (∀ n ∈ [true, false], ∃ v ∈ w.live, v.node = n ∧ v.guest.isSome = true) ∧
      ∀ v ∈ w.live, ∀ g, v.guest = some g →
        Relation.ReflTransGen (fun a b => countingRestore.moves a b = true) (t.guest v.node) g := by
  obtain ⟨w, hrun, hdone⟩ : ∃ w, exec (resumeStep countingRestore)
      (ResumeWorld.init countingRestore fun _ => true) resumingRun = some w ∧ w.phase = .done :=
    ⟨_, rfl, rfl⟩
  obtain ⟨-, ⟨-, -, t, -, -, hpaused, hguest⟩, hwhole, -⟩ :=
    @meshResume_restores _ _ _ countingRestore _ _ _ _ _ _ countingRun_ends rfl rfl hrun
  refine ⟨w, t, hrun, hpaused, hwhole ?_ (Or.inr ⟨hdone, rfl⟩), hguest⟩
  simp [resumingRun, ResumeAct.IsCrash]

end Kubenyx.Snap
