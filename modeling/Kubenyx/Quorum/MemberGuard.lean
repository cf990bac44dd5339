import Kubenyx.Common.Machine
import Kubenyx.Common.Shell

/-!
# The member-set guard

Model of `etcdMemberGuard` and `etcdJoinProbe` (modules/datastore.nix:72-121,
modules/datastore.nix:164-330), which `ExecStartPre` runs in this order before etcd on a
node with several servers. The guard keeps a record of the member set in the data
directory, and refuses to start etcd when a recorded member is no longer declared.

* `guard_refuses_iff`: what makes the guard refuse.
* `refusals_justified_iff`: the refusals of a sequence of start attempts all concern an
  initialised data directory, exactly when no attempt that comes before etcd has
  initialised it drops a member of the first declaration.
-/

namespace Kubenyx.Quorum

open Kubenyx.Common Kubenyx.Common.Shell

/-- What a script leaves behind: its exit status and what it wrote to standard error. -/
structure Exit where
  code : ℕ
  stderr : List Text
  deriving DecidableEq

/-- What the scripts see of the data directory. -/
structure DataDir where
  /-- The content of `.kubenyx-member-set`. -/
  record : Option Text
  /-- `member` exists: etcd has initialised the directory. -/
  member : Bool
  deriving DecidableEq

/-! ## The guard -/

/-- The message for a declaration that grew (datastore.nix:101). -/
def grewMessage (recorded : Text) : List Text :=
  ["kubenyx: declared etcd member set grew beyond the recorded bootstrap set (recorded: ".toList ++
    recorded ++ "); kubenyx-etcd-reconcile adds the new members as learners and records ".toList ++
      "the set once runtime matches".toList]

/-- The message of a refusal (datastore.nix:104-107). -/
def refusalMessage (recorded want : Text) : List Text :=
  ["kubenyx: etcd member set changed since this datastore was bootstrapped:".toList,
    "  recorded: ".toList ++ recorded,
    "  declared: ".toList ++ want,
    "kubenyx: the control-plane set is fixed at cluster creation ".toList ++
      "(air/v0.1/quorum/durable-ha.org). Changing it means a new initial-cluster plus an ".toList ++
      "'etcdctl snapshot save/restore' migration — a documented runbook, not machinery. ".toList ++
      "Refusing to start with mismatched bootstrap flags.".toList]

/-- `etcdMemberGuard` (datastore.nix:72-121) with the declared set `want`. -/
def etcdMemberGuard (want : Text) (d : DataDir) : Exit × DataDir :=
  match d.record with
  | some content =>
    let recorded := substitute content
    if recorded = want then (⟨0, []⟩, d)
    else if (fields ',' recorded).all (caseEntry ',' want) then (⟨0, grewMessage recorded⟩, d)
    else (⟨1, refusalMessage recorded want⟩, d)
  | none =>
    -- initialised without a record: bootstrapped by the single-server unit
    if d.member then (⟨0, []⟩, d)
    else (⟨0, []⟩, { d with record := some (want ++ ['\n']) })

/-- The members in a record. -/
def recordedMembers (content : Text) : List Text := fields ',' (substitute content)

/-- The members that a declaration has. -/
def declaredMembers (want : Text) : List Text := want.splitOn ','

/-- Some member of the record is no longer declared. -/
def DropsMember (content want : Text) : Prop :=
  ∃ m ∈ recordedMembers content, m ∉ declaredMembers want

/-- The guard refuses exactly when there is a record with a member that is no longer
    declared. -/
theorem guard_refuses_iff (want : Text) (d : DataDir) :
    (etcdMemberGuard want d).1.code = 1 ↔ ∃ content, d.record = some content ∧
      DropsMember content want := by
  unfold etcdMemberGuard
  cases hrec : d.record with
  | none =>
    cases d.member <;> simp
  | some content =>
    have hall : (fields ',' (substitute content)).all (caseEntry ',' want) = true ↔
        ∀ m ∈ recordedMembers content, m ∈ declaredMembers want := by
      rw [List.all_eq_true]
      exact forall₂_congr fun m hm => caseEntry_iff hm
    simp only [Option.some.injEq, exists_eq_left', DropsMember]
    split_ifs with hsame hgrew
    · -- an unchanged declaration has all its own members
      have hkept : ∀ m ∈ recordedMembers content, m ∈ declaredMembers want := by
        intro m hm
        rw [recordedMembers, hsame] at hm
        exact fields_subset hm
      simpa using hkept
    · simpa using hall.mp hgrew
    · rw [hall] at hgrew
      push Not at hgrew
      simpa using hgrew

/-- The guard writes its record on an empty directory only, and touches nothing else. -/
theorem guard_dataDir (want : Text) (d : DataDir) :
    (etcdMemberGuard want d).2 =
      if d.record = none ∧ d.member = false then { d with record := some (want ++ ['\n']) }
      else d := by
  unfold etcdMemberGuard
  cases hrec : d.record with
  | none => cases hmem : d.member <;> simp
  | some content =>
    dsimp only
    split_ifs <;> simp_all

/-! ## The join probe -/

/-- What probing the other declared servers comes to (datastore.nix:190-328). -/
inductive Probing where
  /-- Every server refused in so many sweeps in a row. -/
  | allRefused (sweeps : ℕ)
  /-- Nobody answered within the window. -/
  | noAnswer
  /-- A healthy cluster lists this node as a learner; its members are given. -/
  | learner (initialCluster : Text)
  /-- A healthy cluster lists this node as a voting member. -/
  | voting (initialCluster : Text)
  /-- This node is listed as a voting member beside founders that have not started. -/
  | founderRace
  /-- A healthy cluster never listed this node. -/
  | neverListed (healthyEp : Text)
  deriving DecidableEq

/-- What the probe finds: the first of the client credentials that is missing or empty,
    and then the other servers. -/
structure Probe where
  missing : Option Text
  found : Probing
  deriving DecidableEq

/-- The two variables of `etcd-cluster.env`. -/
structure ClusterEnv where
  initialCluster : Text
  initialClusterState : Text
  deriving DecidableEq

/-- A line of the join probe. -/
def probeMessage (text : Text) : List Text := ["kubenyx-etcd-join-probe: ".toList ++ text]

/-- `etcdJoinProbe` (datastore.nix:164-330): its exit and the environment file it writes. The
    lines on silent servers during the sweeps are left out. -/
def etcdJoinProbe (declared : Text) (d : DataDir) (p : Probe) : Exit × Option ClusterEnv :=
  if d.member then (⟨0, []⟩, some ⟨declared, "new".toList⟩)
  else
    match p.missing with
    | some f =>
      (⟨1, probeMessage (f ++ " missing; cannot probe the declared servers (ship the ".toList ++
        "custody bundle and rerun kubenyx-pki)".toList)⟩, none)
    | none =>
      match p.found with
      | .allRefused sweeps =>
        (⟨0, probeMessage ("every declared server actively refused across ".toList ++
          (toString sweeps).toList ++ " sweeps (all peers are also fresh); bootstrapping ".toList ++
          "the declared initial-cluster without waiting out the probe window".toList)⟩,
          some ⟨declared, "new".toList⟩)
      | .noAnswer =>
        (⟨0, probeMessage ("no declared server answered; bootstrapping the declared ".toList ++
          "initial-cluster".toList)⟩, some ⟨declared, "new".toList⟩)
      | .learner ic =>
        (⟨0, probeMessage ("joining the existing cluster as a learner: ".toList ++ ic)⟩,
          some ⟨ic, "existing".toList⟩)
      | .voting ic =>
        (⟨0, probeMessage ("rejoining the existing cluster as a declared voting member: ".toList ++
          ic)⟩, some ⟨ic, "existing".toList⟩)
      | .founderRace =>
        (⟨0, probeMessage ("concurrent first bootstrap detected (this node is already a ".toList ++
          "declared voting member; other founders still unstarted); using the declared ".toList ++
          "initial-cluster".toList)⟩, some ⟨declared, "new".toList⟩)
      | .neverListed ep =>
        (⟨1, ["KUBENYX-ETCD-JOIN-DEGRADED: a healthy cluster answered at ".toList ++ ep ++
          " but this node's peer URL never appeared in the member list within 300s — ".toList ++
          "kubenyx-etcd-reconcile on the running servers adds declared members one ".toList ++
          "learner at a time; refusing to bootstrap a second cluster (the unit fails and ".toList ++
          "retries)".toList]⟩, none)

/-- The probe looks at nothing in the data directory but whether it is initialised. -/
theorem etcdJoinProbe_congr {d d' : DataDir} (h : d.member = d'.member) {declared : Text}
    {p : Probe} : etcdJoinProbe declared d p = etcdJoinProbe declared d' p := by
  unfold etcdJoinProbe
  rw [h]

/-! ## Start attempts -/

/-- One start of the unit: the declared set, what the probe finds, and whether etcd, once it
    runs, gets as far as initialising the data directory. -/
structure Attempt where
  want : Text
  probe : Probe
  inits : Bool
  deriving DecidableEq

/-- The guard refuses the attempt. -/
def Attempt.Refused (a : Attempt) (d : DataDir) : Prop := (etcdMemberGuard a.want d).1.code = 1

instance (a : Attempt) (d : DataDir) : Decidable (a.Refused d) :=
  inferInstanceAs (Decidable (_ = _))

/-- The attempt gets through the probe of a directory that is not initialised, and etcd
    initialises it. -/
def Attempt.initialises (a : Attempt) : Bool :=
  (etcdJoinProbe a.want ⟨none, false⟩ a.probe).1.code = 0 && a.inits

/-- The data directory after an attempt: guard, join probe, etcd. -/
def start (d : DataDir) (a : Attempt) : Option DataDir :=
  if a.Refused d then some d
  else
    let d' := (etcdMemberGuard a.want d).2
    if (etcdJoinProbe a.want d' a.probe).1.code ≠ 0 then some d'
    else some { d' with member := d'.member || a.inits }

/-- A refusal concerns a directory that etcd has initialised, and a recorded member that is
    no longer declared. -/
def Justified (d : DataDir) (a : Attempt) : Prop :=
  a.Refused d → d.member = true ∧ ∃ content, d.record = some content ∧ DropsMember content a.want

/-- As long as no attempt before it initialises the directory, an attempt declares every
    member that the first attempt declared. -/
def KeepsFirst (as : List Attempt) : Prop :=
  ∀ first before a after, as = first :: (before ++ a :: after) →
    (∀ b ∈ first :: before, b.initialises = false) →
      ¬ DropsMember (first.want ++ ['\n']) a.want

theorem justified_of_member {d : DataDir} (hd : d.member = true) (a : Attempt) : Justified d a :=
  fun h => ⟨hd, (guard_refuses_iff a.want d).mp h⟩

theorem start_of_member {d d' : DataDir} (hd : d.member = true) {a : Attempt}
    (h : start d a = some d') : d'.member = true := by
  unfold start at h
  have hguard : (etcdMemberGuard a.want d).2 = d := by
    rw [guard_dataDir, if_neg (by simp [hd])]
  rw [hguard] at h
  dsimp only at h
  split_ifs at h <;> obtain rfl := Option.some.inj h <;> simp [hd]

/-- Every refusal of an initialised directory is justified. -/
theorem along_of_member {d : DataDir} (hd : d.member = true) (as : List Attempt) :
    Along start Justified d as := by
  induction as generalizing d with
  | nil => trivial
  | cons a as ih => exact ⟨justified_of_member hd a, fun d' h => ih (start_of_member hd h)⟩

/-- An attempt on a directory that is not initialised, and that the guard lets through. -/
theorem start_of_not_member {d : DataDir} (hd : d.member = false) {a : Attempt}
    (h : ¬ a.Refused d) :
    start d a = some { (etcdMemberGuard a.want d).2 with member := a.initialises } := by
  have hmem : (etcdMemberGuard a.want d).2.member = false := by
    rw [guard_dataDir]
    split_ifs <;> simp [hd]
  have hprobe : etcdJoinProbe a.want (etcdMemberGuard a.want d).2 a.probe =
      etcdJoinProbe a.want ⟨none, false⟩ a.probe := etcdJoinProbe_congr hmem
  unfold start
  rw [if_neg h]
  simp only [hprobe, hmem, Bool.false_or, Attempt.initialises]
  by_cases hcode : (etcdJoinProbe a.want ⟨none, false⟩ a.probe).1.code = 0
  · simp [hcode]
  · have hd' : (etcdMemberGuard a.want d).2 =
        { (etcdMemberGuard a.want d).2 with member := false } := by rw [← hmem]
    simp only [hcode, ne_eq, not_false_eq_true, if_true, decide_false, Bool.false_and]
    exact congrArg some hd'

/-- The attempts on a directory with a record that etcd has not initialised: the record stays
    what it is, so every attempt up to the initialisation is held against it. -/
theorem along_pending_iff {content : Text} {as : List Attempt} :
    Along start Justified ⟨some content, false⟩ as ↔
      ∀ before a after, as = before ++ a :: after →
        (∀ b ∈ before, b.initialises = false) → ¬ DropsMember content a.want := by
  induction as with
  | nil => simp [Along]
  | cons c as ih =>
    have hrefused : c.Refused ⟨some content, false⟩ ↔ DropsMember content c.want := by
      unfold Attempt.Refused
      rw [guard_refuses_iff]
      simp
    have hjust : Justified ⟨some content, false⟩ c ↔ ¬ DropsMember content c.want := by
      simp [Justified, hrefused]
    have hstart (hkeep : ¬ DropsMember content c.want) :
        start ⟨some content, false⟩ c = some ⟨some content, c.initialises⟩ := by
      rw [start_of_not_member rfl (hrefused.not.mpr hkeep), guard_dataDir, if_neg (by simp)]
    constructor
    · rintro ⟨hc, hrest⟩ before a after heq hbefore
      have hkeep := hjust.mp hc
      cases before with
      | nil =>
        obtain ⟨rfl, -⟩ := List.cons.inj heq
        exact hkeep
      | cons b before =>
        obtain ⟨rfl, htail⟩ := List.cons.inj heq
        have hpending := hrest _ (hstart hkeep)
        rw [hbefore c List.mem_cons_self] at hpending
        exact ih.mp hpending before a after htail fun b hb => hbefore b (List.mem_cons_of_mem _ hb)
    · intro h
      have hkeep : ¬ DropsMember content c.want := h [] c as rfl (by simp)
      refine ⟨hjust.mpr hkeep, fun d' hd' => ?_⟩
      obtain rfl := Option.some.inj ((hstart hkeep).symm.trans hd')
      cases hinit : c.initialises with
      | true => exact along_of_member rfl as
      | false =>
        refine ih.mpr fun before a after heq hbefore => h (c :: before) a after ?_ ?_
        · rw [heq, List.cons_append]
        · exact List.forall_mem_cons.mpr ⟨hinit, hbefore⟩

/-- The first attempt on an empty directory leaves a record, whatever comes of it. -/
theorem along_empty_iff {as : List Attempt} :
    Along start Justified ⟨none, false⟩ as ↔ KeepsFirst as := by
  cases as with
  | nil => simp [Along, KeepsFirst]
  | cons first as =>
    have hpass : ¬ first.Refused ⟨none, false⟩ := by
      unfold Attempt.Refused
      rw [guard_refuses_iff]
      simp
    have hstart : start ⟨none, false⟩ first =
        some ⟨some (first.want ++ ['\n']), first.initialises⟩ := by
      rw [start_of_not_member rfl hpass, guard_dataDir, if_pos (by simp)]
    have hrest : Along start Justified ⟨none, false⟩ (first :: as) ↔
        Along start Justified ⟨some (first.want ++ ['\n']), first.initialises⟩ as := by
      simp only [Along, hstart, Option.some.injEq, forall_eq']
      exact and_iff_right fun h => absurd h hpass
    rw [hrest]
    cases hinit : first.initialises with
    | true =>
      refine iff_of_true (along_of_member rfl as) ?_
      rintro f before a after heq hbefore
      obtain ⟨rfl, -⟩ := List.cons.inj heq
      exact absurd (hbefore first List.mem_cons_self) (by simp [hinit])
    | false =>
      rw [along_pending_iff]
      constructor
      · rintro h f before a after heq hbefore
        obtain ⟨rfl, rfl⟩ := List.cons.inj heq
        exact h before a after rfl fun b hb => hbefore b (List.mem_cons_of_mem _ hb)
      · rintro h before a after rfl hbefore
        exact h first before a after rfl (List.forall_mem_cons.mpr ⟨hinit, hbefore⟩)

/-- In a sequence of start attempts, on a directory that has a record only if etcd has
    initialised it, every refusal concerns an initialised directory and a member no longer
    declared, exactly if no attempt made before etcd has initialised an empty directory drops
    a member that the first one declared. -/
theorem refusals_justified_iff (d : DataDir) (hd : d.member = false → d.record = none)
    (as : List Attempt) :
    Along start Justified d as ↔ (d.member = false → KeepsFirst as) := by
  cases hmem : d.member with
  | true => exact iff_of_true (along_of_member hmem as) (by simp)
  | false =>
    obtain rfl : d = ⟨none, false⟩ := by rw [← hd hmem, ← hmem]
    rw [along_empty_iff]
    simp

instance (content want : Text) : Decidable (DropsMember content want) :=
  inferInstanceAs (Decidable (∃ m ∈ recordedMembers content, m ∉ declaredMembers want))

/-- The client credentials are not there yet. -/
def Probe.noCredentials : Probe where
  missing := some "/var/lib/kubenyx/pki/ca.crt".toList
  found := .noAnswer

/-- Two servers are declared, and the probe fails. -/
def foundersPending : Attempt where
  want := "a=https://10.0.0.1:2380,b=https://10.0.0.2:2380".toList
  probe := Probe.noCredentials
  inits := true

/-- A third server is declared, and the cluster is bootstrapped. -/
def foundersGrown : Attempt where
  want := "a=https://10.0.0.1:2380,b=https://10.0.0.2:2380,c=https://10.0.0.3:2380".toList
  probe := ⟨none, .noAnswer⟩
  inits := true

/-- Another server is declared in the place of `b`, and the probe fails. -/
def founderReplaced : Attempt where
  want := "a=https://10.0.0.1:2380,c=https://10.0.0.3:2380".toList
  probe := Probe.noCredentials
  inits := true

/-- A first attempt fails in the probe, the second declares a third server as well and
    bootstraps. -/
theorem refusals_justified_iff_grown :
    Along start Justified ⟨none, false⟩ [foundersPending, foundersGrown] := by
  refine (refusals_justified_iff ⟨none, false⟩ (fun _ => rfl) _).mpr fun _ => ?_
  have hkeep : ¬ DropsMember (foundersPending.want ++ ['\n']) foundersGrown.want := by
    decide +kernel
  generalize foundersPending = p at hkeep ⊢
  generalize foundersGrown = g at hkeep ⊢
  rintro first before a after heq -
  obtain ⟨rfl, htail⟩ := List.cons.inj heq
  have hmem : a ∈ [g] := by
    rw [htail]
    simp
  rw [List.mem_singleton.mp hmem]
  exact hkeep

/-- A first attempt fails in the probe, and the second declares another server in the place
    of `b`: it is refused, with nothing in the data directory but the record. -/
theorem refusal_unjustified :
    ¬ ∀ (d : DataDir) (as : List Attempt), (d.member = false → d.record = none) →
      Along start Justified d as := by
  intro h
  have hrun := h ⟨none, false⟩ [foundersPending, founderReplaced] (fun _ => rfl)
  have hstart : start ⟨none, false⟩ foundersPending =
      some ⟨some (foundersPending.want ++ ['\n']), false⟩ := by decide +kernel
  have hrefused : founderReplaced.Refused ⟨some (foundersPending.want ++ ['\n']), false⟩ := by
    decide +kernel
  generalize foundersPending = p at hrun hstart hrefused
  generalize founderReplaced = r at hrun hrefused
  have hjust : Justified ⟨some (p.want ++ ['\n']), false⟩ r := (hrun.2 _ hstart).1
  exact absurd (hjust hrefused).1 (by simp)

end Kubenyx.Quorum
