import Kubenyx.Common.Machine

/-!
# The table of owned VMMs

Model of `OWNED_VMMS` (lib.rs:57-122) under the resume threads of `mesh-resume`
(lib.rs:1800-1858). Every thread spawns a child and enters it into the table; `die` and the
signal handler empty the table, kill what they find and leave the process. All of them work on
the table slot by slot, at the same time.

A step is one atomic action: a spawn, one compare-and-exchange, one swap, one kill, the exit.
The handler is run by any thread that is there to take the signal, so it is an actor of its
own here.

* `Placed`: a live child is held by the thread that spawned it, by the table, or by a sweep
  that has taken it out.
* `no_child_survives_exit`: no child outlives the process, in every run that registers no
  child behind a sweep and does not exit while a child is held elsewhere.
-/

namespace Kubenyx.Snap

open Kubenyx.Common

/-- lib.rs:64. -/
def OWNED_MAX : ℕ := 16

/-- Who takes steps. -/
inductive Actor where
  /-- The main thread, which waits for the others. -/
  | main
  /-- The thread that resumes a node. -/
  | node (i : ℕ)
  /-- A run of the signal handler. -/
  | handler (j : ℕ)
  deriving DecidableEq

/-- Where an actor stands. -/
inductive Pc where
  /-- It has nothing to do with the table: the main thread, and a handler not yet called. -/
  | idle
  /-- A resume thread before its spawn (lib.rs:1813-1829). -/
  | ready
  /-- It has spawned the child `pid`; `own_vmm` is at slot `k` (lib.rs:67-77). -/
  | owning (pid k : ℕ)
  /-- `own_vmm` has returned; the socket and the API call (lib.rs:1831-1845). -/
  | owned
  /-- The thread has returned its child. -/
  | finished
  /-- `kill_owned_vmm` or the handler is at slot `k`, with a child taken out of the slot before
      and not killed yet (lib.rs:85-95, lib.rs:97-109). -/
  | sweeping (k : ℕ) (hand : Option ℕ)
  deriving DecidableEq

/-- The process and its children. -/
structure Proc where
  slots : ℕ → Option ℕ
  pc : Actor → Pc
  alive : List ℕ
  /-- The exit status, once the process has exited. -/
  exited : Option ℕ

/-- The process with `nodes` resume threads to run. -/
def Proc.init (nodes : ℕ) : Proc where
  slots _ := none
  pc a := match a with
    | .node i => if i < nodes then .ready else .idle
    | _ => .idle
  alive := []
  exited := none

inductive OwnAct where
  /-- The thread spawns a child. -/
  | spawn (a : Actor) (pid : ℕ)
  /-- The next compare-and-exchange of `own_vmm`, or its `die` when it has tried every slot. -/
  | own (a : Actor)
  /-- The API call succeeds. -/
  | loaded (a : Actor)
  /-- The thread calls `die`. -/
  | die (a : Actor)
  /-- A termination signal arrives. -/
  | signal (j : ℕ)
  /-- The next swap of a sweep. -/
  | swap (a : Actor)
  /-- The kill of what the last swap found. -/
  | kill (a : Actor)
  /-- The exit at the end of a sweep. -/
  | exit (a : Actor)
  /-- A child ends by itself. -/
  | ends (pid : ℕ)
  deriving DecidableEq

/-- The actor moves on. -/
def Proc.goto (s : Proc) (a : Actor) (pc : Pc) : Proc := { s with pc := Function.update s.pc a pc }

/-- The exit status of an actor's sweep (lib.rs:108, lib.rs:121). -/
def Actor.status : Actor → ℕ
  | .handler _ => 130
  | _ => 2

/-- One atomic step. -/
def ownStep (s : Proc) (act : OwnAct) : Option Proc :=
  if s.exited.isSome then none
  else
    match act with
    | .spawn a pid =>
      if s.pc a = .ready ∧ pid ∉ s.alive then
        some { s.goto a (.owning pid 0) with alive := pid :: s.alive }
      else none
    | .own a =>
      match s.pc a with
      | .owning pid k =>
        if k < OWNED_MAX then
          if s.slots k = none then
            some { s.goto a .owned with slots := Function.update s.slots k (some pid) }
          else some (s.goto a (.owning pid (k + 1)))
        else some (s.goto a (.sweeping 0 none)) -- more than 16 owned VMMs
      | _ => none
    | .loaded a => if s.pc a = .owned then some (s.goto a .finished) else none
    | .die a =>
      if s.pc a = .ready ∨ s.pc a = .owned ∨ a = .main ∧ s.pc a = .idle then
        some (s.goto a (.sweeping 0 none))
      else none
    | .signal j =>
      if s.pc (.handler j) = .idle then some (s.goto (.handler j) (.sweeping 0 none)) else none
    | .swap a =>
      match s.pc a with
      | .sweeping k none =>
        if k < OWNED_MAX then
          some { s.goto a (.sweeping (k + 1) (s.slots k)) with
            slots := Function.update s.slots k none }
        else none
      | _ => none
    | .kill a =>
      match s.pc a with
      | .sweeping k (some pid) =>
        some { s.goto a (.sweeping k none) with alive := s.alive.filter (· ≠ pid) }
      | _ => none
    | .exit a =>
      if s.pc a = .sweeping OWNED_MAX none then some { s with exited := some a.status } else none
    | .ends pid => some { s with alive := s.alive.filter (· ≠ pid) }

/-! ## Where a live child is held -/

/-- A live child is with the thread that spawned it, in the table, or in the hand of a sweep. -/
def Placed (s : Proc) (pid : ℕ) : Prop :=
  (∃ a k, s.pc a = .owning pid k) ∨ (∃ k < OWNED_MAX, s.slots k = some pid) ∨
    ∃ a k, s.pc a = .sweeping k (some pid)

/-- The slots that a sweep has passed are empty. -/
def SweptEmpty (s : Proc) : Prop :=
  ∀ a j hand, s.pc a = .sweeping j hand → ∀ k < j, s.slots k = none

/-- The condition on a step, in the state before it. `own_vmm` does not run out of slots, and
    the slot that it fills is not behind a sweep. When the process exits, no thread is between
    the spawn of a child and its registration, and no sweep holds a child that it has not
    killed. -/
def Orderly (s : Proc) (act : OwnAct) : Prop :=
  match act with
  | .own a => ∀ pid k, s.pc a = .owning pid k →
      k < OWNED_MAX ∧ (s.slots k = none → ∀ b j hand, s.pc b = .sweeping j hand → j ≤ k)
  | .exit _ => (∀ b pid k, s.pc b ≠ .owning pid k) ∧ ∀ b k pid, s.pc b ≠ .sweeping k (some pid)
  | _ => True

/-- What holds along the orderly runs. -/
structure OwnInv (s : Proc) : Prop where
  placed : s.exited = none → ∀ pid ∈ s.alive, Placed s pid
  swept : s.exited = none → SweptEmpty s
  exited : s.exited.isSome = true → s.alive = []

section steps

variable {s s' : Proc} {a : Actor} {pid : ℕ}

@[simp] theorem goto_pc_self (s : Proc) (a : Actor) (pc : Pc) : (s.goto a pc).pc a = pc :=
  Function.update_self ..

theorem goto_pc_of_ne {b : Actor} (h : b ≠ a) (pc : Pc) : (s.goto a pc).pc b = s.pc b :=
  Function.update_of_ne h ..

@[simp] theorem goto_slots (s : Proc) (a : Actor) (pc : Pc) : (s.goto a pc).slots = s.slots := rfl

/-- A child stays where it is when an actor that does not hold it moves on. -/
theorem Placed.frame (h : Placed s pid) (hslots : ∀ k, s.slots k = some pid → s'.slots k = some pid)
    (hpc : ∀ b ≠ a, s'.pc b = s.pc b) (howning : ∀ k, s.pc a ≠ .owning pid k)
    (hhand : ∀ k, s.pc a ≠ .sweeping k (some pid)) : Placed s' pid := by
  rcases h with ⟨b, k, hb⟩ | ⟨k, hk, hslot⟩ | ⟨b, k, hb⟩
  · have hne : b ≠ a := fun h => howning k (h ▸ hb)
    exact Or.inl ⟨b, k, (hpc b hne).trans hb⟩
  · exact Or.inr (Or.inl ⟨k, hk, hslots k hslot⟩)
  · have hne : b ≠ a := fun h => hhand k (h ▸ hb)
    exact Or.inr (Or.inr ⟨b, k, (hpc b hne).trans hb⟩)

/-- Passed slots stay empty when nothing is entered and the actor that moves on has passed
    only empty slots. -/
theorem SweptEmpty.frame (h : SweptEmpty s) (hslots : ∀ k, s.slots k = none → s'.slots k = none)
    (hpc : ∀ b ≠ a, s'.pc b = s.pc b)
    (hself : ∀ j hand, s'.pc a = .sweeping j hand → ∀ k < j, s'.slots k = none) :
    SweptEmpty s' := by
  intro b j hand hb k hk
  by_cases hba : b = a
  · subst hba
    exact hself j hand hb k hk
  · rw [hpc b hba] at hb
    exact hslots k (h b j hand hb k hk)

/-- An actor moves on, with no effect on the table or the children: it holds no child before,
    and is not in the middle of a sweep after. -/
theorem OwnInv.goto (hinv : OwnInv s) (hlive : s.exited = none) {pc : Pc}
    (howning : ∀ pid k, s.pc a = .owning pid k → ∃ k', pc = .owning pid k')
    (hhand : ∀ k pid, s.pc a ≠ .sweeping k (some pid))
    (hfresh : ∀ j hand, pc = .sweeping j hand → j = 0) : OwnInv (s.goto a pc) where
  placed _ pid hpid := by
    by_cases hold : ∃ k, s.pc a = .owning pid k
    · obtain ⟨k, hk⟩ := hold
      obtain ⟨k', rfl⟩ := howning pid k hk
      exact Or.inl ⟨a, k', goto_pc_self ..⟩
    · exact (hinv.placed hlive pid hpid).frame (fun _ h => h) (fun b hb => goto_pc_of_ne hb pc)
        (fun k hk => hold ⟨k, hk⟩) fun k => hhand k pid
  swept _ := by
    refine (hinv.swept hlive).frame (fun _ h => h) (fun b hb => goto_pc_of_ne hb pc) ?_
    intro j hand hpc k hk
    rw [goto_pc_self] at hpc
    exact absurd hk (by simp [hfresh j hand hpc])
  exited h := absurd h (by simp [Proc.goto, hlive])

/-- Fewer children live, and nothing else changes. -/
theorem OwnInv.alive_filter (hinv : OwnInv s) (hlive : s.exited = none) (p : ℕ → Bool) :
    OwnInv { s with alive := s.alive.filter p } where
  placed _ pid hpid := hinv.placed hlive pid (List.mem_of_mem_filter hpid)
  swept _ := hinv.swept hlive
  exited h := absurd h (by simp [hlive])

theorem ownInv_spawn (hinv : OwnInv s) (hlive : s.exited = none) (hpc : s.pc a = .ready) (pid : ℕ) :
    OwnInv { s.goto a (.owning pid 0) with alive := pid :: s.alive } where
  placed _ pid' hpid' := by
    rcases List.mem_cons.mp hpid' with rfl | hold
    · exact Or.inl ⟨a, 0, goto_pc_self ..⟩
    · exact (hinv.placed hlive pid' hold).frame (fun _ h => h) (fun b hb => goto_pc_of_ne hb _)
        (by simp [hpc]) (by simp [hpc])
  swept _ := by
    refine (hinv.swept hlive).frame (fun _ h => h) (fun b hb => goto_pc_of_ne hb _) ?_
    intro j hand h
    exact absurd (h.symm.trans (goto_pc_self s a _)) (by simp)
  exited h := absurd h (by simp [Proc.goto, hlive])

/-- A child is entered into an empty slot that every sweep has still to reach. -/
theorem ownInv_register (hinv : OwnInv s) (hlive : s.exited = none) {k : ℕ}
    (hpc : s.pc a = .owning pid k) (hk : k < OWNED_MAX) (hslot : s.slots k = none)
    (hahead : ∀ b j hand, s.pc b = .sweeping j hand → j ≤ k) :
    OwnInv { s.goto a .owned with slots := Function.update s.slots k (some pid) } where
  placed _ pid' hpid' := by
    by_cases hsame : pid' = pid
    · subst hsame
      exact Or.inr (Or.inl ⟨k, hk, Function.update_self ..⟩)
    · refine (hinv.placed hlive pid' hpid').frame ?_ (fun b hb => goto_pc_of_ne hb _) ?_ ?_
      · intro k' hk'
        have hne : k' ≠ k := by
          rintro rfl
          simp [hslot] at hk'
        exact (Function.update_of_ne hne ..).trans hk'
      · intro k' hk'
        rw [hpc] at hk'
        exact hsame (Pc.owning.inj hk').1.symm
      · simp [hpc]
  swept _ := by
    intro b j hand hb i hi
    have hba : b ≠ a := by
      rintro rfl
      exact absurd (hb.symm.trans (goto_pc_self s b _)) (by simp)
    have hb' : s.pc b = .sweeping j hand := (goto_pc_of_ne hba _).symm.trans hb
    have hik : i ≠ k := Nat.ne_of_lt (Nat.lt_of_lt_of_le hi (hahead b j hand hb'))
    exact (Function.update_of_ne hik ..).trans (hinv.swept hlive b j hand hb' i hi)
  exited h := absurd h (by simp [Proc.goto, hlive])

/-- A sweep takes what is in its next slot. -/
theorem ownInv_swap (hinv : OwnInv s) (hlive : s.exited = none) {k : ℕ}
    (hpc : s.pc a = .sweeping k none) :
    OwnInv { s.goto a (.sweeping (k + 1) (s.slots k)) with
      slots := Function.update s.slots k none } where
  placed _ pid' hpid' := by
    by_cases hslot : s.slots k = some pid'
    · refine Or.inr (Or.inr ⟨a, k + 1, ?_⟩)
      rw [← hslot]
      exact goto_pc_self ..
    · refine (hinv.placed hlive pid' hpid').frame ?_ (fun b hb => goto_pc_of_ne hb _) (by simp [hpc])
        (by simp [hpc])
      intro k' hk'
      have hne : k' ≠ k := by
        rintro rfl
        exact hslot hk'
      exact (Function.update_of_ne hne ..).trans hk'
  swept _ := by
    have hempty : ∀ i, s.slots i = none → Function.update s.slots k none i = none := by
      intro i hi
      by_cases hik : i = k
      · rw [hik]
        exact Function.update_self ..
      · exact (Function.update_of_ne hik ..).trans hi
    refine (hinv.swept hlive).frame hempty (fun b hb => goto_pc_of_ne hb _) ?_
    intro j hand h i hi
    obtain ⟨rfl, -⟩ := Pc.sweeping.inj (h.symm.trans (goto_pc_self s a _))
    by_cases hik : i = k
    · rw [hik]
      exact Function.update_self ..
    · exact hempty i (hinv.swept hlive a k none hpc i (by omega))
  exited h := absurd h (by simp [Proc.goto, hlive])

/-- A sweep kills what it holds. -/
theorem ownInv_kill (hinv : OwnInv s) (hlive : s.exited = none) {k : ℕ}
    (hpc : s.pc a = .sweeping k (some pid)) :
    OwnInv { s.goto a (.sweeping k none) with alive := s.alive.filter (· ≠ pid) } where
  placed _ pid' hpid' := by
    obtain ⟨hold, hne⟩ := List.mem_filter.mp hpid'
    have hne' : pid' ≠ pid := of_decide_eq_true hne
    refine (hinv.placed hlive pid' hold).frame (fun _ h => h) (fun b hb => goto_pc_of_ne hb _)
      (by simp [hpc]) ?_
    intro k' hk'
    rw [hpc] at hk'
    exact hne' (Option.some.inj (Pc.sweeping.inj hk').2).symm
  swept _ := by
    refine (hinv.swept hlive).frame (fun _ h => h) (fun b hb => goto_pc_of_ne hb _) ?_
    intro j hand h
    obtain ⟨rfl, -⟩ := Pc.sweeping.inj (h.symm.trans (goto_pc_self s a _))
    exact hinv.swept hlive a _ (some pid) hpc
  exited h := absurd h (by simp [Proc.goto, hlive])

/-- The exit at the end of a sweep: the table is empty, and no child is held elsewhere. -/
theorem ownInv_exit (hinv : OwnInv s) (hlive : s.exited = none)
    (hpc : s.pc a = .sweeping OWNED_MAX none) (hord : Orderly s (.exit a)) :
    OwnInv { s with exited := some a.status } where
  placed h := absurd h (by simp)
  swept h := absurd h (by simp)
  exited _ := by
    refine List.eq_nil_iff_forall_not_mem.mpr fun pid hpid => ?_
    rcases hinv.placed hlive pid hpid with ⟨b, k, hb⟩ | ⟨k, hk, hslot⟩ | ⟨b, k, hb⟩
    · exact hord.1 b pid k hb
    · rw [hinv.swept hlive a OWNED_MAX none hpc k hk] at hslot
      exact absurd hslot (by simp)
    · exact hord.2 b k pid hb

/-- Every orderly step keeps the invariant. -/
theorem ownInv_step {act : OwnAct} (hord : Orderly s act) (h : ownStep s act = some s')
    (hinv : OwnInv s) : OwnInv s' := by
  unfold ownStep at h
  split_ifs at h with hexited
  have hlive : s.exited = none := by simpa using hexited
  cases act with
  | spawn a pid =>
    dsimp only at h
    split_ifs at h with hg
    obtain rfl := Option.some.inj h
    exact ownInv_spawn hinv hlive hg.1 pid
  | own a =>
    cases hpc : s.pc a with
    | owning pid k =>
      obtain ⟨hk, hahead⟩ := hord pid k hpc
      simp only [hpc, hk, if_true] at h
      split_ifs at h with hslot
      · obtain rfl := Option.some.inj h
        exact ownInv_register hinv hlive hpc hk hslot (hahead hslot)
      · obtain rfl := Option.some.inj h
        refine hinv.goto hlive (fun pid' k' h' => ?_) (by simp [hpc]) (by simp)
        obtain ⟨rfl, -⟩ := Pc.owning.inj (hpc.symm.trans h')
        exact ⟨k + 1, rfl⟩
    | _ => simp [hpc] at h
  | loaded a =>
    dsimp only at h
    split_ifs at h with hg
    obtain rfl := Option.some.inj h
    exact hinv.goto hlive (by simp [hg]) (by simp [hg]) (by simp)
  | die a =>
    dsimp only at h
    split_ifs at h with hg
    obtain rfl := Option.some.inj h
    refine hinv.goto hlive ?_ ?_ (by simp)
    · rcases hg with hg | hg | ⟨-, hg⟩ <;> simp [hg]
    · rcases hg with hg | hg | ⟨-, hg⟩ <;> simp [hg]
  | signal j =>
    dsimp only at h
    split_ifs at h with hg
    obtain rfl := Option.some.inj h
    exact hinv.goto hlive (by simp [hg]) (by simp [hg]) (by simp)
  | swap a =>
    dsimp only at h
    split at h
    case h_1 k hpc =>
      split_ifs at h
      obtain rfl := Option.some.inj h
      exact ownInv_swap hinv hlive hpc
    case h_2 => exact absurd h (by simp)
  | kill a =>
    dsimp only at h
    split at h
    case h_1 k pid hpc =>
      obtain rfl := Option.some.inj h
      exact ownInv_kill hinv hlive hpc
    case h_2 => exact absurd h (by simp)
  | exit a =>
    dsimp only at h
    split_ifs at h with hg
    obtain rfl := Option.some.inj h
    exact ownInv_exit hinv hlive hg hord
  | ends pid =>
    obtain rfl := Option.some.inj h
    exact hinv.alive_filter hlive _

end steps

theorem ownInv_init (nodes : ℕ) : OwnInv (Proc.init nodes) where
  placed _ pid hpid := absurd hpid (by simp [Proc.init])
  swept _ := fun _ _ _ _ _ _ => rfl
  exited h := absurd h (by simp [Proc.init])

/-- Once the process has exited through `die` or a signal, no child it spawned is alive, in every
    run whose steps are orderly, for every number of resume threads. -/
theorem no_child_survives_exit (nodes : ℕ) (acts : List OwnAct) (s : Proc)
    (hrun : exec ownStep (Proc.init nodes) acts = some s)
    (hord : Along ownStep Orderly (Proc.init nodes) acts) (hexit : s.exited.isSome = true) :
    s.alive = [] :=
  (hord.invariant (fun _ _ _ hord h hinv => ownInv_step hord h hinv) hrun
    (ownInv_init nodes)).exited hexit

/-! ## A run with an exit, and a run with a leak -/

/-- A sweep goes through empty slots. -/
theorem exec_swaps {s : Proc} {a : Actor} (hlive : s.exited = none) (hslots : s.slots = fun _ => none)
    {j : ℕ} (m : ℕ) (hm : j + m ≤ OWNED_MAX) :
    exec ownStep (s.goto a (.sweeping j none)) (List.replicate m (.swap a)) =
      some (s.goto a (.sweeping (j + m) none)) := by
  induction m generalizing j with
  | zero => rfl
  | succ m ih =>
    have hstep : ownStep (s.goto a (.sweeping j none)) (.swap a) =
        some (s.goto a (.sweeping (j + 1) none)) := by
      have hj : j < OWNED_MAX := by omega
      simp [ownStep, Proc.goto, hlive, hj, hslots, Function.update_idem, Function.update_eq_self]
    have hsum : j + 1 + m = j + (m + 1) := by omega
    rw [List.replicate_succ, exec, hstep, Option.bind_some, ih (by omega), hsum]

/-- All actors but one are where they start. -/
theorem init_goto_pc (nodes : ℕ) (a b : Actor) (pc : Pc) :
    ((Proc.init nodes).goto a pc).pc b = pc ∨ ((Proc.init nodes).goto a pc).pc b = .ready ∨
      ((Proc.init nodes).goto a pc).pc b = .idle := by
  by_cases hba : b = a
  · subst hba
    exact Or.inl (goto_pc_self ..)
  · rw [goto_pc_of_ne hba]
    cases b with
    | node i =>
      by_cases h : i < nodes
      · exact Or.inr (Or.inl (if_pos h))
      · exact Or.inr (Or.inr (if_neg h))
    | _ => exact Or.inr (Or.inr rfl)

/-- Where the only actor under way holds no child, the process may exit. -/
theorem orderly_exit {nodes k : ℕ} {a : Actor} :
    Orderly ((Proc.init nodes).goto a (.sweeping k none)) (.exit a) := by
  constructor
  · intro b pid k' hb
    rcases init_goto_pc nodes a b (.sweeping k none) with h | h | h
    all_goals exact absurd (hb.symm.trans h) (by simp)
  · intro b pid k' hb
    rcases init_goto_pc nodes a b (.sweeping k none) with h | h | h
    all_goals exact absurd (hb.symm.trans h) (by simp)

/-- The first registration is orderly: no sweep is under way. -/
theorem orderly_own {nodes pid : ℕ} {a : Actor} {s : Proc}
    (hs : s.pc = ((Proc.init nodes).goto a (.owning pid 0)).pc) : Orderly s (.own a) := by
  intro pid' k hk
  rw [hs, goto_pc_self] at hk
  obtain ⟨-, rfl⟩ := Pc.owning.inj hk
  refine ⟨by decide, fun _ b j hand hb => ?_⟩
  rw [hs] at hb
  rcases init_goto_pc nodes a b (.owning pid 0) with h | h | h
  all_goals exact absurd (hb.symm.trans h) (by simp)

/-- A thread spawns a child, registers it, and dies: the first steps. -/
def registerAndDie : List OwnAct :=
  [.spawn (.node 0) 100, .own (.node 0), .die (.node 0), .swap (.node 0), .kill (.node 0)]

theorem exec_registerAndDie :
    exec ownStep (Proc.init 1) registerAndDie =
      some ((Proc.init 1).goto (.node 0) (.sweeping 1 none)) := by
  simp [registerAndDie, exec, ownStep, Proc.goto, Proc.init, OWNED_MAX]

theorem along_registerAndDie : Along ownStep Orderly (Proc.init 1) registerAndDie := by
  refine ⟨trivial, fun s hs => ⟨@orderly_own 1 100 _ _ ?_, fun s' _ => ?_⟩⟩
  · simp only [ownStep, Proc.init] at hs
    obtain rfl := Option.some.inj hs
    rfl
  · exact along_of_forall (by simp [Orderly])

/-- The sweep goes on to the end of the table, which is empty by now. -/
theorem exec_registerAndDie_swaps :
    exec ownStep (Proc.init 1) (registerAndDie ++ List.replicate 15 (.swap (.node 0))) =
      some ((Proc.init 1).goto (.node 0) (.sweeping OWNED_MAX none)) := by
  rw [exec_append, exec_registerAndDie, Option.bind_some]
  exact exec_swaps rfl rfl 15 (by decide)

theorem exec_exit {s : Proc} (hlive : s.exited = none) (a : Actor) :
    exec ownStep (s.goto a (.sweeping OWNED_MAX none)) [.exit a] =
      some { s.goto a (.sweeping OWNED_MAX none) with exited := some a.status } := by
  simp [exec, ownStep, Proc.goto, hlive]

theorem along_registerAndDie_exit :
    Along ownStep Orderly (Proc.init 1)
      ((registerAndDie ++ List.replicate 15 (.swap (.node 0))) ++ [.exit (.node 0)]) := by
  refine along_append.mpr ⟨along_append.mpr ⟨along_registerAndDie, fun s' _ => ?_⟩, fun s' hs' => ?_⟩
  · refine along_of_forall fun act hact s => ?_
    rw [List.eq_of_mem_replicate hact]
    trivial
  · rw [exec_registerAndDie_swaps] at hs'
    rw [← Option.some.inj hs']
    exact ⟨orderly_exit, fun _ _ => trivial⟩

/-- A resume thread that registers its child and then dies leaves nothing behind. -/
theorem no_child_survives_exit_one_node :
    ∃ s, exec ownStep (Proc.init 1)
        ((registerAndDie ++ List.replicate 15 (.swap (.node 0))) ++ [.exit (.node 0)]) = some s ∧
      s.exited = some 2 ∧ s.alive = [] := by
  have hrun : exec ownStep (Proc.init 1)
      ((registerAndDie ++ List.replicate 15 (.swap (.node 0))) ++ [.exit (.node 0)]) =
        some { (Proc.init 1).goto (.node 0) (.sweeping OWNED_MAX none) with exited := some 2 } := by
    rw [exec_append, exec_registerAndDie_swaps, Option.bind_some]
    exact exec_exit rfl (.node 0)
  have halong := along_registerAndDie_exit
  generalize (registerAndDie ++ List.replicate 15 (.swap (.node 0))) ++ [.exit (.node 0)] = acts
    at hrun halong ⊢
  generalize hs : { (Proc.init 1).goto (.node 0) (.sweeping OWNED_MAX none) with exited := some 2 } = s
    at hrun
  have hexited : s.exited = some 2 := by rw [← hs]
  exact ⟨s, hrun, hexited, no_child_survives_exit 1 acts s hrun halong (by rw [hexited]; rfl)⟩

/-- A signal arrives between the spawn and `own_vmm`: the handler finds an empty table, and the
    child outlives the process. -/
theorem child_survives_exit :
    ¬ ∀ (nodes : ℕ) (acts : List OwnAct) (s : Proc),
      exec ownStep (Proc.init nodes) acts = some s → s.exited.isSome = true → s.alive = [] := by
  intro h
  have hspawn : ownStep (Proc.init 1) (.spawn (.node 0) 100) =
      some { (Proc.init 1).goto (.node 0) (.owning 100 0) with alive := [100] } := by
    simp [ownStep, Proc.init]
  generalize hs₁ : { (Proc.init 1).goto (.node 0) (.owning 100 0) with alive := [100] } = s₁ at hspawn
  have hidle : s₁.pc (.handler 0) = .idle := by
    rw [← hs₁]
    rfl
  have hlive : s₁.exited = none := by
    rw [← hs₁]
    rfl
  have hsignal : ownStep s₁ (.signal 0) = some (s₁.goto (.handler 0) (.sweeping 0 none)) := by
    simp [ownStep, hlive, hidle]
  have hslots : s₁.slots = fun _ => none := by
    rw [← hs₁]
    rfl
  have hsweep := exec_swaps (a := .handler 0) (j := 0) hlive hslots OWNED_MAX (by simp)
  rw [Nat.zero_add] at hsweep
  have hrun : exec ownStep (Proc.init 1) ([.spawn (.node 0) 100, .signal 0] ++
      List.replicate OWNED_MAX (.swap (.handler 0)) ++ [.exit (.handler 0)]) =
      some { s₁.goto (.handler 0) (.sweeping OWNED_MAX none) with exited := some 130 } := by
    have hstart : exec ownStep (Proc.init 1) [.spawn (.node 0) 100, .signal 0] =
        some (s₁.goto (.handler 0) (.sweeping 0 none)) := by
      rw [exec, hspawn, Option.bind_some, exec, hsignal, Option.bind_some, exec]
    rw [exec_append, exec_append, hstart, Option.bind_some, hsweep, Option.bind_some]
    exact exec_exit hlive (.handler 0)
  have halive := h 1 _ _ hrun rfl
  rw [← hs₁] at halive
  exact absurd halive (by simp [Proc.goto])

end Kubenyx.Snap
