import Kubenyx.Common.RustStr

/-!
# The snapshot identity gate

Model of the identity that a take records and of the check that a resume makes against it
(lib.rs:416-991). A take writes the node closure, the VMM binary and the CPU into the
manifest of the snapshot; a resume reads them back before it starts a VMM and refuses to go
on when what it can know of its own side is different.

* `parseIdentity_identityLines`: a manifest reads back as the identity it was written from.
* `cpuIdentityCheck_accepts_iff`: the rule table for the CPU.
* `enforceIdentity_proceeds_iff`: from the take to the gate of a resume.
-/

namespace Kubenyx.Snap

open Kubenyx.Common

/-! ## The identity and its text -/

/-- `SnapIdentity` (lib.rs:444-468). -/
structure SnapIdentity where
  closure : Option Text
  vmm : Option Text
  cpu : Option Text
  cpuHost : Option Text
  deriving DecidableEq

/-- `SnapIdentity::is_empty` (lib.rs:471-476). -/
def SnapIdentity.isEmpty (id : SnapIdentity) : Bool :=
  id.closure.isNone && id.vmm.isNone && id.cpu.isNone && id.cpuHost.isNone

/-- lib.rs:438. -/
def IDENTITY_PREFIX : Text := "identity ".toList

/-- lib.rs:559. -/
def TEMPLATE_PREFIX : Text := "template:".toList

/-- The line of a field, without its newline. -/
def identityLine (field : Text × Text) : Text := IDENTITY_PREFIX ++ field.1 ++ ' ' :: field.2

/-- The fields that are there, under their keys (lib.rs:519-525). -/
def SnapIdentity.fields (id : SnapIdentity) : List (Text × Text) :=
  [("closure".toList, id.closure), ("vmm".toList, id.vmm), ("cpu".toList, id.cpu),
    ("cpu-host".toList, id.cpuHost)].filterMap fun (k, v) => v.map fun v => (k, v)

/-- `identity_lines` (lib.rs:517-527). -/
def identityLines (id : SnapIdentity) : Text :=
  id.fields.flatMap fun field => identityLine field ++ ['\n']

/-- The `match key` of `parse_identity` (lib.rs:544-552): a field of another name is ignored. -/
def SnapIdentity.set (id : SnapIdentity) (key value : Text) : SnapIdentity :=
  if key = "closure".toList then { id with closure := some value }
  else if key = "vmm".toList then { id with vmm := some value }
  else if key = "cpu".toList then { id with cpu := some value }
  else if key = "cpu-host".toList then { id with cpuHost := some value }
  else id

/-- The loop body of `parse_identity` (lib.rs:536-553). -/
def parseLine (id : SnapIdentity) (line : Text) : SnapIdentity :=
  match stripPrefix IDENTITY_PREFIX line with
  | none => id
  | some rest =>
    match splitOnce ' ' rest with
    | none => id
    | some (key, value) => id.set key (trim value)

/-- `parse_identity` (lib.rs:529-555). -/
def parseIdentity (manifest : Text) : SnapIdentity :=
  (lines manifest).foldl parseLine ⟨none, none, none, none⟩

/-- A string that survives a line of the manifest. -/
structure Recordable (t : Text) : Prop extends Trimmed t where
  newline : '\n' ∉ t

instance decidableRecordable (t : Text) : Decidable (Recordable t) :=
  decidable_of_iff ((t.head?.all fun c => !isWhitespace c) = true ∧
      (t.getLast?.all fun c => !isWhitespace c) = true ∧ '\n' ∉ t)
    ⟨fun h => ⟨⟨fun c hc => by simpa [Option.mem_def.mp hc] using h.1,
        fun c hc => by simpa [Option.mem_def.mp hc] using h.2.1⟩, h.2.2⟩,
      fun h => ⟨by simpa [Option.all_eq_true] using h.head, by simpa [Option.all_eq_true] using h.last,
        h.newline⟩⟩

/-- Every string of the identity is recordable. -/
def SnapIdentity.Recordable (id : SnapIdentity) : Prop :=
  ∀ field ∈ id.fields, Snap.Recordable field.2

/-- The keys have neither a space nor a newline. -/
theorem key_clean {id : SnapIdentity} {field : Text × Text} (h : field ∈ id.fields) :
    ' ' ∉ field.1 ∧ '\n' ∉ field.1 := by
  unfold SnapIdentity.fields at h
  obtain ⟨⟨k, v⟩, hmem, hfield⟩ := List.mem_filterMap.mp h
  obtain ⟨value, -, rfl⟩ := Option.map_eq_some_iff.mp hfield
  have hkey : k ∈ [("closure".toList, id.closure), ("vmm".toList, id.vmm), ("cpu".toList, id.cpu),
      ("cpu-host".toList, id.cpuHost)].map Prod.fst := List.mem_map_of_mem hmem
  have hall : ∀ key ∈ ["closure".toList, "vmm".toList, "cpu".toList, "cpu-host".toList],
      ' ' ∉ key ∧ '\n' ∉ key := by decide
  exact hall k hkey

theorem stripCr_identityLine {field : Text × Text} (h : Snap.Recordable field.2) :
    stripCr (identityLine field) = identityLine field := by
  by_cases hnil : field.2 = []
  · unfold stripCr identityLine
    rw [hnil]
    refine if_neg ?_
    simp
  · apply stripCr_eq_self
    intro c hc
    rw [identityLine, ← List.singleton_append, ← List.append_assoc,
      List.getLast?_append_of_ne_nil _ hnil] at hc
    exact h.last c hc

theorem newline_not_mem_identityLine {field : Text × Text} (hkey : '\n' ∉ field.1)
    (hval : Snap.Recordable field.2) : '\n' ∉ identityLine field := by
  have hstart : '\n' ∉ IDENTITY_PREFIX := by decide
  unfold identityLine
  simp only [List.mem_append, List.mem_cons, not_or]
  exact ⟨⟨hstart, hkey⟩, by decide, hval.newline⟩

/-- The lines of a written manifest are the lines of its fields. -/
theorem lines_flatMap {fields : List (Text × Text)} (hkey : ∀ field ∈ fields, '\n' ∉ field.1)
    (hval : ∀ field ∈ fields, Snap.Recordable field.2) :
    lines (fields.flatMap fun field => identityLine field ++ ['\n']) = fields.map identityLine := by
  have hlines : fields.flatMap (fun field => identityLine field ++ ['\n']) =
      (fields.map identityLine).flatMap (· ++ ['\n']) := by
    rw [List.flatMap_map]
  rw [hlines]
  refine lines_flatMap_newline fun l hl => ?_
  obtain ⟨field, hf, rfl⟩ := List.mem_map.mp hl
  exact ⟨newline_not_mem_identityLine (hkey field hf) (hval field hf),
    stripCr_identityLine (hval field hf)⟩

theorem parseLine_identityLine {field : Text × Text} (hkey : ' ' ∉ field.1)
    (hval : Snap.Recordable field.2) (id : SnapIdentity) :
    parseLine id (identityLine field) = id.set field.1 field.2 := by
  unfold parseLine identityLine
  rw [List.append_assoc, stripPrefix_append]
  dsimp only
  rw [splitOnce_append hkey]
  dsimp only
  rw [trim_eq_self hval.toTrimmed]

/-- Setting the fields one by one gives the identity back. -/
theorem SnapIdentity.foldl_set (id : SnapIdentity) :
    id.fields.foldl (fun acc field => acc.set field.1 field.2) ⟨none, none, none, none⟩ = id := by
  obtain ⟨closure, vmm, cpu, cpuHost⟩ := id
  cases closure <;> cases vmm <;> cases cpu <;> cases cpuHost <;> rfl

/-- A manifest reads back as the identity it was written from. -/
theorem parseIdentity_identityLines {id : SnapIdentity} (h : id.Recordable) :
    parseIdentity (identityLines id) = id := by
  unfold parseIdentity identityLines
  rw [lines_flatMap (fun field hf => (key_clean hf).2) h, List.foldl_map]
  have hset : id.fields.foldl (fun acc field => parseLine acc (identityLine field))
        ⟨none, none, none, none⟩ =
      id.fields.foldl (fun acc field => acc.set field.1 field.2) ⟨none, none, none, none⟩ := by
    apply List.foldl_ext
    intro acc field hf
    exact parseLine_identityLine (key_clean hf).1 (h field hf) acc
  rw [hset]
  exact id.foldl_set

/-! ## The take side -/

/-- What a take observes: the closure and the VMM as far as it knows them, the fingerprint of
    the host, and the CPU template that the VMM runs under. -/
structure TakeObservation where
  closure : Option Text
  vmm : Option Text
  fingerprint : Text
  template : Option Text

/-- `take_cpu_identity` (lib.rs:691-699). -/
def takeCpuIdentity (template : Option Text) (cpuFingerprint : Text) : Option Text × Option Text :=
  match template with
  | some t => (some (TEMPLATE_PREFIX ++ t), some cpuFingerprint)
  | none => (some cpuFingerprint, none)

/-- The identity that a take records (lib.rs:1109-1118, lib.rs:1175-1181,
    lib.rs:1766-1772). -/
def TakeObservation.identity (o : TakeObservation) : SnapIdentity where
  closure := o.closure
  vmm := o.vmm
  cpu := (takeCpuIdentity o.template o.fingerprint).1
  cpuHost := (takeCpuIdentity o.template o.fingerprint).2

/-! ## The resume side -/

/-- `IdentityMismatch` (lib.rs:722-727). -/
structure IdentityMismatch where
  field : Text
  recorded : Text
  live : Text
  why : Text
  deriving DecidableEq

def WHY_CLOSURE : Text :=
  "the snapshot is a booted instance of one exact node closure; a different closure ".toList ++
    "means the guest inside is not the system being asked for (closure lock)".toList

def WHY_VMM : Text :=
  "snap.vmstate is written by and locked to one exact firecracker build; a different VMM ".toList ++
    "misparses or refuses the device state (VMM version lock)".toList

def WHY_CPU : Text :=
  "snap.mem freezes guest xstate/CPUID against the take host's CPU features; restoring ".toList ++
    "under a different feature set has a measured history of guest XRSTORS #GP kernel ".toList ++
    "panics (CPU-feature lock)".toList

def WHY_TEMPLATE : Text :=
  "the snapshot's CPU identity is keyed to a firecracker CPU template ".toList ++
    "(portable-snapshots.org §D3); resume must present the same template via ".toList ++
    "--cpu-template — exact string, no subset logic, because a half-right compatibility ".toList ++
    "check fails as a guest panic instead of an error message (template lock)".toList

def WHY_NOT_TEMPLATED : Text :=
  "--cpu-template was passed but this snapshot was minted WITHOUT a template — its ".toList ++
    "frozen xstate is keyed to the minting host, and claiming a template it never ran ".toList ++
    "under would fake portability the artifact does not have (template lock)".toList

/-- `identity_mismatches` (lib.rs:754-777): a field that one side does not know is skipped. -/
def identityMismatches (recorded live : SnapIdentity) : List IdentityMismatch :=
  [("closure".toList, recorded.closure, live.closure, WHY_CLOSURE),
    ("vmm".toList, recorded.vmm, live.vmm, WHY_VMM)].filterMap fun (field, rec, liv, why) =>
      match rec, liv with
      | some r, some l => if r ≠ l then some ⟨field, r, l, why⟩ else none
      | _, _ => none

/-- The warning of `cpu_identity_check` (lib.rs:824-831). -/
def hostDiffers (recordedHost liveCpu : Text) : Text :=
  "template-keyed identities match but the host CPU differs from the minting host\n  minted on: ".toList ++
    recordedHost ++ "\n  this host: ".toList ++ liveCpu ++
    "\n  proceeding — the template is the lock; cross-host restore remains unproven ".toList ++
      "(portable-snapshots.org §D4)".toList

/-- `cpu_identity_check` (lib.rs:789-852): the mismatches and the warnings. -/
def cpuIdentityCheck (recordedCpu recordedCpuHost : Option Text) (liveCpu : Text)
    (resumeTemplate : Option Text) : List IdentityMismatch × List Text :=
  match recordedCpu with
  | none =>
    match resumeTemplate with
    | some rt =>
      ([⟨"cpu".toList, "(no cpu identity recorded)".toList, TEMPLATE_PREFIX ++ rt,
        WHY_NOT_TEMPLATED⟩], [])
    | none => ([], [])
  | some rc =>
    match stripPrefix TEMPLATE_PREFIX rc with
    | some recordedTemplate =>
      match resumeTemplate with
      | none =>
        ([⟨"cpu".toList, rc, "(resume passed no --cpu-template)".toList, WHY_TEMPLATE⟩], [])
      | some rt =>
        if rt ≠ recordedTemplate then
          ([⟨"cpu".toList, rc, TEMPLATE_PREFIX ++ rt, WHY_TEMPLATE⟩], [])
        else
          -- the fingerprint of the host is advisory under a template
          match recordedCpuHost with
          | some rh => ([], if rh ≠ liveCpu then [hostDiffers rh liveCpu] else [])
          | none => ([], [])
    | none =>
      match resumeTemplate with
      | some rt => ([⟨"cpu".toList, rc, TEMPLATE_PREFIX ++ rt, WHY_NOT_TEMPLATED⟩], [])
      | none =>
        if rc ≠ liveCpu then ([⟨"cpu".toList, rc, liveCpu, WHY_CPU⟩], []) else ([], [])

/-- What a resume has: the snapshot directory, the `--firecracker` argument and what
    `resolve_exe` makes of it, the fingerprint of the host, the resolved `--cpu-template` and
    `--allow-identity-mismatch`. -/
structure Resume where
  snapshot : Text
  firecracker : Text
  vmm : Option Text
  fingerprint : Text
  cpuTemplate : Option Text
  allowMismatch : Bool

/-- `live_identity` (lib.rs:907-922). -/
def Resume.liveIdentity (r : Resume) : SnapIdentity := ⟨none, r.vmm, some r.fingerprint, none⟩

/-- `read_snapshot_identity` (lib.rs:924-928) on the text of the manifest, if it can be read. -/
def readSnapshotIdentity (manifest : Option Text) : Option SnapIdentity :=
  match manifest with
  | none => none
  | some raw => if (parseIdentity raw).isEmpty then none else some (parseIdentity raw)

/-- What `enforce_identity` does: it returns, or dies with a message. In both cases it has
    printed some lines. -/
structure Gate where
  stderr : List Text
  died : Option Text
  deriving DecidableEq

/-- The gate lets the resume go on. -/
def Gate.Proceeds (g : Gate) : Prop := g.died = none

/-- A warning (lib.rs:961-963). -/
def warning (t : Text) : Text := "kubenyx-snap: warning: ".toList ++ t

/-- The warning of `live_identity` (lib.rs:910-913). -/
def Resume.vmmWarning (r : Resume) : List Text :=
  if r.vmm = none then
    [warning ("cannot resolve '".toList ++ r.firecracker ++ "' to a binary — the VMM ".toList ++
      "lock is not verifiable (the spawn below will fail anyway if it is absent)".toList)]
  else []

/-- The report of a mismatch (lib.rs:968-973). -/
def IdentityMismatch.report (m : IdentityMismatch) : Text :=
  "kubenyx-snap: identity mismatch: ".toList ++ m.field ++ "\n  recorded: ".toList ++ m.recorded ++
    "\n  live:     ".toList ++ m.live ++ "\n  fatal because ".toList ++ m.why

/-- `enforce_identity` (lib.rs:934-991). -/
def enforceIdentity (manifest : Option Text) (r : Resume) : Gate :=
  match readSnapshotIdentity manifest with
  | none =>
    if r.cpuTemplate.isSome && !r.allowMismatch then
      ⟨[], some ("--cpu-template passed but ".toList ++ r.snapshot ++ " has no identity ".toList ++
        "fields in its manifest (pre-identity snapshot) — the template claim cannot be ".toList ++
        "verified; drop the flag, or pass --allow-identity-mismatch".toList)⟩
    else
      ⟨[warning (r.snapshot ++ " has no identity fields in its manifest (pre-identity ".toList ++
        "snapshot) — the CPU-feature and VMM locks cannot be verified; proceeding".toList)], none⟩
  | some recorded =>
    let live := r.liveIdentity
    let (cpuMismatches, warnings) :=
      cpuIdentityCheck recorded.cpu recorded.cpuHost (live.cpu.getD []) r.cpuTemplate
    let mismatches := identityMismatches recorded live ++ cpuMismatches
    let said := r.vmmWarning ++ warnings.map warning
    if mismatches = [] then ⟨said, none⟩
    else if r.allowMismatch then
      ⟨said ++ mismatches.map IdentityMismatch.report ++
        ["kubenyx-snap: WARNING: --allow-identity-mismatch set — proceeding against ".toList ++
          (toString mismatches.length).toList ++ " identity mismatch(es); a guest kernel ".toList ++
          "panic or silently corrupt restore is the expected failure mode here, not a ".toList ++
          "bug to report".toList],
        none⟩
    else
      ⟨said ++ mismatches.map IdentityMismatch.report,
        some ("snapshot identity mismatch (fields above) — snapshots never move between ".toList ++
          "hosts or VMM builds; mint a fresh snapshot on this host, or pass ".toList ++
          "--allow-identity-mismatch to proceed anyway".toList)⟩

/-! ## From the take to the gate -/

/-- The strings of the observation have no newline and no white space at their ends, and the
    fingerprint is not spelled like a template. -/
structure TakeObservation.Recordable (o : TakeObservation) : Prop where
  closure : ∀ t ∈ o.closure, Snap.Recordable t
  vmm : ∀ t ∈ o.vmm, Snap.Recordable t
  fingerprint : Snap.Recordable o.fingerprint
  template : ∀ t ∈ o.template, Snap.Recordable t
  untemplated : ¬ TEMPLATE_PREFIX <+: o.fingerprint

theorem trimmed_TEMPLATE_PREFIX : Trimmed TEMPLATE_PREFIX where
  head c hc := by
    have hfirst : TEMPLATE_PREFIX.head? = some 't' := rfl
    rw [hfirst] at hc
    obtain rfl := Option.some.inj hc
    rfl
  last c hc := by
    have hlast : TEMPLATE_PREFIX.getLast? = some ':' := rfl
    rw [hlast] at hc
    obtain rfl := Option.some.inj hc
    rfl

theorem Recordable.template {t : Text} (h : Recordable t) : Recordable (TEMPLATE_PREFIX ++ t) where
  toTrimmed := Trimmed.append trimmed_TEMPLATE_PREFIX (by decide) h.toTrimmed
  newline := by
    have hstart : '\n' ∉ TEMPLATE_PREFIX := by decide
    rw [List.mem_append, not_or]
    exact ⟨hstart, h.newline⟩

theorem TakeObservation.Recordable.identity {o : TakeObservation} (h : o.Recordable) :
    o.identity.Recordable := by
  intro field hfield
  obtain ⟨⟨k, v⟩, hmem, hv⟩ := List.mem_filterMap.mp hfield
  obtain ⟨value, hvalue, rfl⟩ := Option.map_eq_some_iff.mp hv
  dsimp only at hvalue ⊢
  subst hvalue
  have hcpu : ∀ t ∈ (takeCpuIdentity o.template o.fingerprint).1, Snap.Recordable t := by
    intro t ht
    cases htemplate : o.template with
    | none =>
      simp only [takeCpuIdentity, htemplate, Option.mem_def, Option.some.injEq] at ht
      exact ht ▸ h.fingerprint
    | some template =>
      simp only [takeCpuIdentity, htemplate, Option.mem_def, Option.some.injEq] at ht
      exact ht ▸ (h.template template htemplate).template
  have hhost : ∀ t ∈ (takeCpuIdentity o.template o.fingerprint).2, Snap.Recordable t := by
    intro t ht
    cases htemplate : o.template with
    | none => simp [takeCpuIdentity, htemplate] at ht
    | some template =>
      simp only [takeCpuIdentity, htemplate, Option.mem_def, Option.some.injEq] at ht
      exact ht ▸ h.fingerprint
  simp only [List.mem_cons, List.not_mem_nil, or_false, Prod.mk.injEq] at hmem
  rcases hmem with ⟨-, hv⟩ | ⟨-, hv⟩ | ⟨-, hv⟩ | ⟨-, hv⟩
  · exact h.closure value hv.symm
  · exact h.vmm value hv.symm
  · exact hcpu value hv.symm
  · exact hhost value hv.symm

/-- The closure and VMM locks of a resume, which knows no closure: nothing is wrong unless both
    sides know their VMM and the two differ. -/
theorem identityMismatches_eq_nil_iff (recorded : SnapIdentity) (r : Resume) :
    identityMismatches recorded r.liveIdentity = [] ↔
      (recorded.vmm = none ∨ r.vmm = none ∨ recorded.vmm = r.vmm) := by
  unfold identityMismatches Resume.liveIdentity
  cases hrec : recorded.vmm with
  | none => cases recorded.closure <;> simp
  | some rv =>
    cases hlive : r.vmm with
    | none => cases recorded.closure <;> simp
    | some lv =>
      by_cases heq : rv = lv
      · cases recorded.closure <;> simp [heq]
      · cases recorded.closure <;> simp [heq]

/-- The rule table for what a take records of the CPU: under a template the same template must
    be claimed, and otherwise none and the host must be the same. -/
theorem cpuIdentityCheck_accepts_iff (template : Option Text) {fingerprint : Text}
    (hf : ¬ TEMPLATE_PREFIX <+: fingerprint) (liveCpu : Text) (resumeTemplate : Option Text) :
    (cpuIdentityCheck (takeCpuIdentity template fingerprint).1
        (takeCpuIdentity template fingerprint).2 liveCpu resumeTemplate).1 = [] ↔
      match template with
      | some t => resumeTemplate = some t
      | none => resumeTemplate = none ∧ liveCpu = fingerprint := by
  cases template with
  | some t =>
    simp only [takeCpuIdentity, cpuIdentityCheck, stripPrefix_append]
    cases resumeTemplate with
    | none => simp
    | some rt =>
      by_cases heq : rt = t
      · simp [heq]
      · simp [heq]
  | none =>
    simp only [takeCpuIdentity, cpuIdentityCheck, stripPrefix_eq_none hf]
    cases resumeTemplate with
    | some rt => simp
    | none =>
      by_cases heq : fingerprint = liveCpu
      · simp [heq]
      · simp [heq, Ne.symm heq]

/-- A recorded identity without a mismatch goes through, and only that does. -/
theorem enforceIdentity_some_iff {manifest : Option Text} {recorded : SnapIdentity} {r : Resume}
    (hread : readSnapshotIdentity manifest = some recorded) (hallow : r.allowMismatch = false) :
    (enforceIdentity manifest r).Proceeds ↔
      identityMismatches recorded r.liveIdentity = [] ∧
        (cpuIdentityCheck recorded.cpu recorded.cpuHost r.fingerprint r.cpuTemplate).1 = [] := by
  have hlive : r.liveIdentity.cpu.getD [] = r.fingerprint := rfl
  unfold Gate.Proceeds enforceIdentity
  rw [hread]
  simp only [hlive, hallow]
  rw [← List.append_eq_nil_iff]
  by_cases hnone : identityMismatches recorded r.liveIdentity ++
      (cpuIdentityCheck recorded.cpu recorded.cpuHost r.fingerprint r.cpuTemplate).1 = []
  · rw [if_pos hnone]
    exact iff_of_true rfl hnone
  · rw [if_neg hnone, if_neg Bool.false_ne_true]
    exact iff_of_false (Option.some_ne_none _) hnone

/-- A resume without `--allow-identity-mismatch` gets past the gate of a snapshot exactly when
    the VMM is unknown on either side or the same, and the CPU fits: a snapshot taken under a
    template needs the same template, any other needs none and the same host fingerprint. -/
theorem enforceIdentity_proceeds_iff (o : TakeObservation) (ho : o.Recordable) (r : Resume)
    (hallow : r.allowMismatch = false) :
    (enforceIdentity (some (identityLines o.identity)) r).Proceeds ↔
      (o.vmm = none ∨ r.vmm = none ∨ o.vmm = r.vmm) ∧
        match o.template with
        | some t => r.cpuTemplate = some t
        | none => r.cpuTemplate = none ∧ r.fingerprint = o.fingerprint := by
  have hcpu : o.identity.cpu.isNone = false := by
    unfold TakeObservation.identity takeCpuIdentity
    cases o.template <;> rfl
  have hread : readSnapshotIdentity (some (identityLines o.identity)) = some o.identity := by
    simp only [readSnapshotIdentity, parseIdentity_identityLines ho.identity]
    rw [if_neg]
    simp [SnapIdentity.isEmpty, hcpu]
  rw [enforceIdentity_some_iff hread hallow, identityMismatches_eq_nil_iff]
  exact and_congr_right fun _ =>
    cpuIdentityCheck_accepts_iff o.template ho.untemplated r.fingerprint r.cpuTemplate

/-- A snapshot taken under a template resumes on another host, with the template. -/
theorem enforceIdentity_proceeds_iff_other_host :
    (enforceIdentity (some (identityLines (TakeObservation.identity
        ⟨none, some "/nix/store/firecracker".toList, "GenuineIntel/6/143+avx,avx2".toList,
          some "sha256:00ff".toList⟩)))
      ⟨"snapshot".toList, "firecracker".toList, some "/nix/store/firecracker".toList,
        "AuthenticAMD/25/17+avx".toList, some "sha256:00ff".toList, false⟩).Proceeds :=
  (enforceIdentity_proceeds_iff _
    { closure := by simp
      vmm := by
        rintro t ht
        obtain rfl := Option.some.inj ht
        decide +kernel
      fingerprint := by decide +kernel
      template := by
        rintro t ht
        obtain rfl := Option.some.inj ht
        decide +kernel
      untemplated := by decide +kernel } _ rfl).mpr ⟨Or.inr (Or.inr rfl), rfl⟩

end Kubenyx.Snap
