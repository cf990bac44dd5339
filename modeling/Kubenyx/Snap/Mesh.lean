import Kubenyx.Snap.RunManifest

/-!
# The nodes of a mesh

Model of how `mesh-take` finds the nodes of a running mesh (lib.rs:1402-1621): from the
manifest that the launcher wrote into the run directory, or else from the directories with a
socket in it and the addresses that their names have by convention.

* `parseRunManifest_meshManifest`: the scanner reads the launcher's manifest back.
* `meshNodes_finds_members_iff`: the nodes are the members of the mesh at their addresses,
  exactly when the mesh has several servers or is on the default subnet.
-/

namespace Kubenyx.Snap

open Kubenyx.Common
open Kubenyx.Microvm

/-! ## Names and addresses -/

/-- `parse::<u32>`. -/
def parseU32 (t : Text) : Option ℕ := parseUnsigned 32 t

/-- `number_suffix` (lib.rs:1410-1415). -/
def numberSuffix (name stem : Text) : Option ℕ :=
  ((stripPrefix stem name).bind parseU32).filter (1 ≤ ·)

/-- `is_server_name` (lib.rs:1417-1419). -/
def isServerName (name : Text) : Bool :=
  name = "server".toList || (numberSuffix name "server".toList).isSome

/-- The address with a last octet; the sum is of type `u32`. -/
def meshAddress (octet : ℕ) : Text := "10.100.0.".toList ++ decimal (octet % 2 ^ 32)

/-- `conventional_ip` (lib.rs:1429-1439). -/
def conventionalIp (name : Text) (servers : ℕ) : Option Text :=
  if name = "server".toList then some "10.100.0.2".toList
  else
    match numberSuffix name "server".toList with
    | some n => some (meshAddress (1 + n))
    | none => (numberSuffix name "agent".toList).map fun n => meshAddress (1 + servers + n)

/-- `mesh_order_key` (lib.rs:1444-1455). -/
def meshOrderKey (name : Text) : ℕ × ℕ :=
  if name = "server".toList then (0, 0)
  else
    match numberSuffix name "server".toList with
    | some n => (0, n)
    | none =>
      match numberSuffix name "agent".toList with
      | some n => (1, n)
      | none => (2, 0)

/-- The comparison of the sort (lib.rs:1615-1619). -/
def meshLe (a b : MeshNode) : Bool :=
  let ka := meshOrderKey a.name
  let kb := meshOrderKey b.name
  ka.1 < kb.1 ∨ (ka.1 = kb.1 ∧ (ka.2 < kb.2 ∨ (ka.2 = kb.2 ∧ a.name ≤ b.name)))

/-! ## The run directory -/

/-- An entry of the run directory, with the names of the files in it if it is a directory. -/
structure DirEntry where
  name : Text
  files : List Text

/-- The filter of the entries (lib.rs:1591-1595). -/
def DirEntry.hasSocket (e : DirEntry) : Bool :=
  e.name ++ ".sock".toList ∈ e.files ∨ "kubenyx.sock".toList ∈ e.files

/-- What is found in the run directory: the contents of `kubenyx-mesh.json`, if that file can be
    read, and the entries that `read_dir` yields, in any order, or its error. -/
structure RunDir where
  path : Text
  manifest : Option Text
  readDir : Except Text (List DirEntry)

/-- `read_run_manifest` (lib.rs:1514-1520). -/
def readRunManifest (run : RunDir) : Except Text (Option RunManifest) :=
  match run.manifest with
  | none => .ok none
  | some raw =>
    match parseRunManifest raw with
    | .ok m => .ok (some m)
    | .error e =>
      .error ("parse ".toList ++ run.path ++ "/kubenyx-mesh.json: ".toList ++ e)

/-- The `--node name=ip` flags (lib.rs:1560-1581). -/
def explicitNodes : List Text → Except Text (List MeshNode)
  | [] => .ok []
  | [f] => if f = "--node".toList then .error "--node needs name=ip".toList else .ok []
  | f :: v :: flags =>
    if f = "--node".toList then
      match splitOnce '=' v with
      | none => .error ("--node ".toList ++ v ++ ": expected name=ip".toList)
      | some (name, ip) => (explicitNodes flags).map (⟨name, ip⟩ :: ·)
    else explicitNodes (v :: flags)

/-- A discovered node with its conventional address (lib.rs:1602-1609). -/
def conventionalNode (servers : ℕ) (name : Text) : Except Text MeshNode :=
  match conventionalIp name servers with
  | some ip => .ok ⟨name, ip⟩
  | none =>
    .error ("cannot infer address for node '".toList ++ name ++ "' — pass --node ".toList ++ name ++
      "=<ip>".toList)

/-- The discovery in the run directory (lib.rs:1586-1611). -/
def discoverNodes (run : RunDir) : Except Text (List MeshNode) :=
  match run.readDir with
  | .error e => .error ("read ".toList ++ run.path ++ ": ".toList ++ e)
  | .ok entries =>
    let names := (entries.filter DirEntry.hasSocket).map DirEntry.name
    let servers := max (names.filter isServerName).length 1 % 2 ^ 32
    names.mapM (conventionalNode servers)

/-- `mesh_nodes` (lib.rs:1552-1621). -/
def meshNodes (flags : List Text) (runDir : Option RunDir) (manifest : Option RunManifest) :
    Except Text (List MeshNode) := do
  let explicit ← explicitNodes flags
  let nodes ←
    if explicit ≠ [] then .ok explicit
    else
      match manifest, runDir with
      | some m, _ => .ok m.nodes
      | none, some run => discoverNodes run
      | none, none => .ok []
  if nodes = [] then
    .error ("no mesh nodes found (no --node flags and no node workdirs with " ++
      "kubenyx.sock)").toList
  else .ok (nodes.mergeSort meshLe)

/-- The first steps of `cmd_mesh_take` (lib.rs:1697-1698). -/
def meshTakeNodes (flags : List Text) (run : RunDir) : Except Text (List MeshNode) := do
  let manifest ← readRunManifest run
  meshNodes flags (some run) manifest

/-! ## Reading the manifest back -/

/-- The key that the posture stands after. -/
def posturePattern : Text := '"' :: "posture".toList ++ "\":\"".toList

/-- The array of the manifest, without its brackets. -/
def manifestArray (ns : List ManifestNode) : Text := joined ',' (ns.map fun n => '\x7b' :: n.json)

/-- The file that the launcher writes, with the parts that the scanner looks for. -/
def manifestText (ns : List ManifestNode) (posture : Text) : Text :=
  '\x7b' :: ("\"nodes\":[".toList ++ (manifestArray ns ++
    ']' :: ',' :: (posturePattern ++ (posture ++ '"' :: ['\x7d', '\n']))))

theorem meshManifest_eq (durable : Text → Bool) (members : OrdMap Text Member) :
    ∃ posture, Plain posture ∧
      meshManifest durable members ++ ['\n'] = manifestText (manifestNodes members) posture := by
  have hplain : ∀ b : Bool, Plain (if b then "durable" else "volatile").toList := by
    intro b
    unfold Plain
    cases b <;> simp [isPlain]
  refine ⟨_, hplain ((bootOrderFor members).any durable), ?_⟩
  unfold meshManifest
  dsimp only
  rw [jsonString_plain (hplain _)]
  simp [manifestText, posturePattern, manifestArray]

/-- A node of the manifest, with the text of its role. -/
def entry (n : ManifestNode) : ManifestEntry := ⟨n.name, n.ip, n.role.text⟩

theorem printable_of_plain {t : Text} (h : Plain t) : Printable t := by
  intro c hc
  obtain ⟨hle, hlt⟩ := toNat_of_isPlain (h c hc)
  refine ⟨by omega, hlt, fun hcut => ?_⟩
  simp only [List.mem_cons, List.not_mem_nil, or_false] at hcut
  rcases hcut with rfl | rfl | rfl | rfl
  · exact h.not_mem (by decide) hc
  · exact h.not_mem (by decide) hc
  · exact h.not_mem (by decide) hc
  · exact h.not_mem (by decide) hc

theorem manifestArray_eq (ns : List ManifestNode) :
    manifestArray ns = joined ',' ((ns.map entry).map ManifestEntry.json) := by
  unfold manifestArray
  rw [List.map_map]
  rfl

theorem manifestText_eq {ns : List ManifestNode} {posture : Text} (hplain : Plain posture) :
    manifestText ns posture = manifestJson (ns.map entry) posture ++ ['\n'] := by
  rw [manifestJson_eq (printable_of_plain hplain).unescaped, ← manifestArray_eq]
  rfl

theorem parseRunManifest_manifestText {ns : List ManifestNode} {posture : Text}
    (h : ∀ n ∈ ns, n.IsPlain) (hne : ns ≠ []) (hplain : Plain posture) :
    parseRunManifest (manifestText ns posture) =
      .ok ⟨posture, ns.map fun n => ⟨n.name, n.ip⟩⟩ := by
  have hentries : ∀ e ∈ ns.map entry, e.Printable := by
    intro e he
    obtain ⟨n, hn, rfl⟩ := List.mem_map.mp he
    exact ⟨printable_of_plain (h n hn).name, printable_of_plain (h n hn).ip,
      printable_of_plain (plain_role n.role)⟩
  have hnil : ns.map entry ≠ [] := by simpa using hne
  rw [manifestText_eq hplain,
    parseRunManifest_append hentries hnil (printable_of_plain hplain).unescaped, List.map_map]
  rfl

/-- The scanner reads the launcher's manifest back. -/
theorem parseRunManifest_meshManifest {H : HashString} {servers agents : ℕ} {subnet : Text}
    {members : OrdMap Text Member} (h : mkMembers H servers agents subnet = some members)
    (durable : Text → Bool) :
    ∃ posture, parseRunManifest (meshManifest durable members ++ ['\n']) =
      .ok ⟨posture, (manifestNodes members).map fun n => ⟨n.name, n.ip⟩⟩ := by
  obtain ⟨posture, hplain, htext⟩ := meshManifest_eq durable members
  refine ⟨posture, ?_⟩
  rw [htext]
  exact parseRunManifest_manifestText (isPlain_manifestNodes h) (manifestNodes_ne_nil h) hplain

/-! ## Discovery -/

theorem parseU32_decimal {n : ℕ} (h : n < 2 ^ 32) : parseU32 (decimal n) = some n :=
  parseUnsigned_decimal h

theorem numberSuffix_append {n : ℕ} (hpos : 1 ≤ n) (h : n < 2 ^ 32) (stem : Text) :
    numberSuffix (stem ++ decimal n) stem = some n := by
  unfold numberSuffix
  rw [stripPrefix_append, Option.bind_some, parseU32_decimal h]
  simpa using hpos

theorem numberSuffix_agent_server (t : Text) :
    numberSuffix ("agent".toList ++ t) "server".toList = none := by
  unfold numberSuffix
  rw [stripPrefix_eq_none (by simp)]
  rfl

theorem not_isServerName_agent (t : Text) : isServerName ("agent".toList ++ t) = false := by
  unfold isServerName
  rw [numberSuffix_agent_server]
  simp

/-- The network that the convention is about. -/
def conventionalPrefix : Text := "10.100.0".toList

/-- In a mesh of one server the convention gives every member the address that it has on the
    default subnet. -/
theorem conventionalIp_memberList {agents : ℕ} (hagents : 2 + 1 + agents ≤ 254)
    {e : Text × Member} (he : e ∈ memberList 1 agents conventionalPrefix) :
    conventionalIp e.1 1 = some e.2.address := by
  rcases List.mem_append.mp he with he | he
  · obtain ⟨i, hi, rfl⟩ := List.mem_map.mp he
    obtain rfl : i = 1 := by simpa using hi
    rfl
  · obtain ⟨i, hi, rfl⟩ := List.mem_map.mp he
    rw [List.mem_range'_1] at hi
    have hname : "agent".toList ++ decimal i ≠ "server".toList := by simp
    have haddr : meshAddress (1 + 1 + i) = conventionalPrefix ++ '.' :: decimal (1 + 1 + i) := by
      unfold meshAddress conventionalPrefix
      rw [Nat.mod_eq_of_lt (by omega)]
      simp
    unfold conventionalIp agentFor
    rw [if_neg hname, numberSuffix_agent_server, numberSuffix_append (by omega) (by omega)]
    exact congrArg some haddr

theorem map_fst_memberList (servers agents : ℕ) (p q : Text) :
    (memberList servers agents p).map Prod.fst = (memberList servers agents q).map Prod.fst := by
  unfold memberList
  rw [List.map_append, List.map_append, List.map_map, List.map_map, List.map_map, List.map_map]
  rfl

theorem count_servers (agents : ℕ) (p : Text) :
    (((memberList 1 agents p).map Prod.fst).filter isServerName).length = 1 := by
  have hagents : ((List.range' 1 agents).map fun i => (agentFor 1 p i).1).filter isServerName = [] := by
    rw [List.filter_eq_nil_iff]
    intro t ht
    obtain ⟨i, -, rfl⟩ := List.mem_map.mp ht
    rw [agentFor, not_isServerName_agent]
    decide
  have hserver : ([1].map (Prod.fst ∘ serverFor 1 p)).filter isServerName = ["server".toList] := rfl
  unfold memberList
  rw [List.map_append, List.map_map, List.map_map, List.filter_append]
  show ((([1].map (Prod.fst ∘ serverFor 1 p)).filter isServerName) ++
    (((List.range' 1 agents).map fun i => (agentFor 1 p i).1).filter isServerName)).length = 1
  rw [hagents, hserver]
  rfl

/-- A loop in which no round fails. -/
theorem mapM_ok {α β ε : Type} {f : α → Except ε β} {g : α → β} {l : List α}
    (h : ∀ a ∈ l, f a = .ok (g a)) : l.mapM f = .ok (l.map g) := by
  induction l with
  | nil => rfl
  | cons a l ih =>
    obtain ⟨ha, hl⟩ := List.forall_mem_cons.mp h
    rw [List.mapM_cons, ha, ih hl]
    rfl

/-- The address that a name has by convention in a mesh of one server. -/
def conventional (name : Text) : MeshNode := ⟨name, (conventionalIp name 1).getD []⟩

theorem discoverNodes_single {agents : ℕ} (hagents : 2 + 1 + agents ≤ 254) {run : RunDir}
    {entries : List DirEntry} (hdir : run.readDir = .ok entries) {p : Text}
    (hsockets : ((entries.filter DirEntry.hasSocket).map DirEntry.name).Perm
      ((memberList 1 agents p).map Prod.fst)) :
    ∃ nodes, discoverNodes run = .ok nodes ∧
      (nodes.map fun n => (n.name, n.ip)).Perm
        ((memberList 1 agents conventionalPrefix).map fun e => (e.1, e.2.address)) := by
  rw [map_fst_memberList 1 agents p conventionalPrefix] at hsockets
  have hip : ∀ e ∈ memberList 1 agents conventionalPrefix,
      conventionalIp e.1 1 = some e.2.address := fun e he => conventionalIp_memberList hagents he
  have hservers := (hsockets.filter isServerName).length_eq
  rw [count_servers] at hservers
  refine ⟨((entries.filter DirEntry.hasSocket).map DirEntry.name).map conventional, ?_, ?_⟩
  · unfold discoverNodes
    rw [hdir]
    dsimp only
    rw [hservers]
    refine mapM_ok fun name hname => ?_
    obtain ⟨e, he, rfl⟩ := List.mem_map.mp (hsockets.subset hname)
    unfold conventionalNode conventional
    show (match conventionalIp e.1 1 with | some ip => _ | none => _) = _
    rw [hip e he]
    rfl
  · have hperm := (hsockets.map conventional).map fun n => (n.name, n.ip)
    refine hperm.trans (List.Perm.of_eq ?_)
    rw [List.map_map, List.map_map]
    refine List.map_congr_left fun e he => ?_
    simp [conventional, hip e he]

/-! ## The nodes that a take finds -/

theorem explicitNodes_eq_nil {flags : List Text} (h : "--node".toList ∉ flags) :
    explicitNodes flags = .ok [] := by
  fun_induction explicitNodes flags with
  | case1 => rfl
  | case2 => simp at h
  | case3 => rfl
  | case4 => simp at h
  | case5 => simp at h
  | case6 f v flags hf ih => exact ih fun hmem => h (List.mem_cons_of_mem _ hmem)

/-- Without flags the nodes are those of the manifest or those that are discovered, sorted. -/
theorem meshNodes_ok {flags : List Text} (hflags : "--node".toList ∉ flags) {run : RunDir}
    {manifest : Option RunManifest} {nodes : List MeshNode}
    (hnodes : manifest.elim (discoverNodes run) (fun m => .ok m.nodes) = .ok nodes)
    (hne : nodes ≠ []) :
    ∃ sorted, meshNodes flags (some run) manifest = .ok sorted ∧ sorted.Perm nodes := by
  refine ⟨nodes.mergeSort meshLe, ?_, List.mergeSort_perm nodes meshLe⟩
  unfold meshNodes
  rw [explicitNodes_eq_nil hflags]
  cases manifest with
  | none =>
    have hdiscover : discoverNodes run = .ok nodes := hnodes
    show Except.bind (discoverNodes run) _ = _
    rw [hdiscover]
    exact if_neg hne
  | some m =>
    obtain rfl : m.nodes = nodes := Except.ok.inj hnodes
    exact if_neg hne

/-- The run directory of a mesh that runs: the launcher's manifest, and one directory with a
    socket for each member, in any order and beside any entries without one. -/
structure Running (durable : Text → Bool) (servers : ℕ) (members : OrdMap Text Member)
    (run : RunDir) : Prop where
  manifest : run.manifest = meshManifestWrite durable servers members
  sockets : ∃ entries, run.readDir = .ok entries ∧
    ((entries.filter DirEntry.hasSocket).map DirEntry.name).Perm members.keys

/-- A take finds exactly the members with their addresses, each once. -/
def FindsMembers (flags : List Text) (run : RunDir) (members : OrdMap Text Member) : Prop :=
  ∃ nodes, meshTakeNodes flags run = .ok nodes ∧
    (nodes.map fun n => (n.name, n.ip)).Perm (members.entries.map fun e => (e.1, e.2.address))

section finds

variable {H : HashString} {servers agents : ℕ} {subnet : Text} {members : OrdMap Text Member}
  {durable : Text → Bool} {run : RunDir} {flags : List Text}

theorem findsMembers_of_manifest (hm : mkMembers H servers agents subnet = some members)
    (hrun : Running durable servers members run) (hflags : "--node".toList ∉ flags)
    (hservers : 1 < servers) : FindsMembers flags run members := by
  obtain ⟨posture, hparse⟩ := parseRunManifest_meshManifest hm durable
  let m : RunManifest := ⟨posture, (manifestNodes members).map fun n => ⟨n.name, n.ip⟩⟩
  have hread : readRunManifest run = .ok (some m) := by
    unfold readRunManifest
    rw [hrun.manifest, meshManifestWrite, if_pos hservers]
    dsimp only
    rw [hparse]
  have hne : m.nodes ≠ [] := by
    simpa [m] using manifestNodes_ne_nil hm
  obtain ⟨nodes, hnodes, hperm⟩ := @meshNodes_ok flags hflags run (some m) m.nodes rfl hne
  refine ⟨nodes, ?_, ?_⟩
  · unfold meshTakeNodes
    rw [hread]
    exact hnodes
  · have hmembers := (manifestNodes_perm members).map fun n => (n.name, n.ip)
    rw [List.map_map] at hmembers
    refine (hperm.map _).trans ?_
    rw [List.map_map]
    exact hmembers

theorem meshTakeNodes_single (hm : mkMembers H 1 agents subnet = some members)
    (hrun : Running durable 1 members run) (hflags : "--node".toList ∉ flags) :
    ∃ nodes, meshTakeNodes flags run = .ok nodes ∧
      (nodes.map fun n => (n.name, n.ip)).Perm
        ((memberList 1 agents conventionalPrefix).map fun e => (e.1, e.2.address)) := by
  obtain ⟨-, hbound, sn, -, hmembers⟩ := mkMembers_perm hm
  obtain ⟨entries, hdir, hsockets⟩ := hrun.sockets
  obtain ⟨found, hdiscover, hfound⟩ :=
    discoverNodes_single hbound hdir (hsockets.trans (hmembers.map Prod.fst))
  have hne : found ≠ [] := by
    intro hnil
    have := hfound.length_eq
    simp [hnil, memberList] at this
  obtain ⟨nodes, hnodes, hperm⟩ := @meshNodes_ok flags hflags run none found hdiscover hne
  refine ⟨nodes, ?_, (hperm.map _).trans hfound⟩
  have hread : readRunManifest run = .ok none := by
    unfold readRunManifest
    rw [hrun.manifest, meshManifestWrite, if_neg (by decide)]
  unfold meshTakeNodes
  rw [hread]
  exact hnodes

/-- By the convention a mesh of one server is on the default subnet: its server has one address,
    in the declaration and by the convention. -/
theorem subnet_of_findsMembers (hm : mkMembers H 1 agents subnet = some members)
    (hrun : Running durable 1 members run) (hflags : "--node".toList ∉ flags)
    (hfinds : FindsMembers flags run members) : subnet = defaultSubnet := by
  obtain ⟨-, -, sn, hsn, hmembers⟩ := mkMembers_perm hm
  obtain ⟨hsubnet, -, -⟩ := octets_spec (octets_of_subnetFor hsn)
  obtain ⟨nodes, hnodes, hperm⟩ := meshTakeNodes_single hm hrun hflags
  obtain ⟨nodes', hnodes', hperm'⟩ := hfinds
  obtain rfl := Except.ok.inj (hnodes'.symm.trans hnodes)
  have hmem : ("server".toList, sn.netPrefix ++ ".2".toList) ∈
      (memberList 1 agents conventionalPrefix).map fun e => (e.1, e.2.address) := by
    refine (hperm'.symm.trans hperm).subset ((hmembers.map _).symm.subset ?_)
    exact List.mem_map.mpr ⟨serverFor 1 sn.netPrefix 1, by simp [memberList], rfl⟩
  obtain ⟨e, he, heq⟩ := List.mem_map.mp hmem
  obtain ⟨hname, haddr⟩ := Prod.mk.inj heq
  rcases List.mem_append.mp he with he | he
  · obtain ⟨i, hi, rfl⟩ := List.mem_map.mp he
    obtain rfl : i = 1 := by simpa using hi
    have hnet : conventionalPrefix = sn.netPrefix := List.append_cancel_right haddr
    rw [hsubnet, ← hnet]
    rfl
  · obtain ⟨i, -, rfl⟩ := List.mem_map.mp he
    exact absurd hname (by simp [agentFor])

theorem findsMembers_default (hm : mkMembers H 1 agents defaultSubnet = some members)
    (hrun : Running durable 1 members run) (hflags : "--node".toList ∉ flags) :
    FindsMembers flags run members := by
  obtain ⟨-, -, sn, hsn, hmembers⟩ := mkMembers_perm hm
  obtain ⟨hsubnet, -, -⟩ := octets_spec (octets_of_subnetFor hsn)
  obtain ⟨nodes, hnodes, hperm⟩ := meshTakeNodes_single hm hrun hflags
  have hnet : conventionalPrefix = sn.netPrefix :=
    List.append_cancel_right ((show conventionalPrefix ++ _ = defaultSubnet from rfl).trans hsubnet)
  rw [← hnet] at hmembers
  exact ⟨nodes, hnodes, hperm.trans (hmembers.map _).symm⟩

/-- The nodes that a take finds are the members of the mesh at their addresses, exactly when the
    mesh has several servers or is on the default subnet. -/
theorem meshNodes_finds_members_iff (hm : mkMembers H servers agents subnet = some members)
    (hrun : Running durable servers members run) (hflags : "--node".toList ∉ flags) :
    FindsMembers flags run members ↔ (1 < servers ∨ subnet = defaultSubnet) := by
  by_cases hservers : 1 < servers
  · exact iff_of_true (findsMembers_of_manifest hm hrun hflags hservers) (Or.inl hservers)
  · have hone := (mkMembers_perm hm).1
    obtain rfl : servers = 1 := by omega
    simp only [hservers, false_or]
    constructor
    · exact subnet_of_findsMembers hm hrun hflags
    · rintro rfl
      exact findsMembers_default hm hrun hflags

end finds

/-- The run directory that a launcher fills. -/
def launched (durable : Text → Bool) (servers : ℕ) (members : OrdMap Text Member) : RunDir where
  path := "/tmp/kubenyx-cluster".toList
  manifest := meshManifestWrite durable servers members
  readDir := .ok (⟨"ca-bundle".toList, []⟩ ::
    members.keys.map fun name => ⟨name, [name ++ ".sock".toList]⟩)

theorem running_launched (durable : Text → Bool) (servers : ℕ) (members : OrdMap Text Member) :
    Running durable servers members (launched durable servers members) where
  manifest := rfl
  sockets := by
    refine ⟨_, rfl, List.Perm.of_eq ?_⟩
    have hsocket : ∀ name : Text, DirEntry.hasSocket ⟨name, [name ++ ".sock".toList]⟩ = true := by
      intro name
      unfold DirEntry.hasSocket
      exact decide_eq_true (Or.inl (List.mem_singleton_self _))
    rw [List.filter_cons_of_neg (by decide), List.filter_eq_self.mpr, List.map_map]
    · exact List.map_id _
    · intro e he
      obtain ⟨name, -, rfl⟩ := List.mem_map.mp he
      exact hsocket name

/-- Three servers and two agents on another subnet are found through the manifest. -/
theorem meshNodes_finds_members_iff_manifest :
    ∃ members, mkMembers collidingHash 3 2 "10.1.2.0/24".toList = some members ∧
      FindsMembers [] (launched (fun _ => false) 3 members) members := by
  obtain ⟨members, hm⟩ := Option.isSome_iff_exists.mp
    (show (mkMembers collidingHash 3 2 "10.1.2.0/24".toList).isSome = true by decide +kernel)
  refine ⟨members, hm, ?_⟩
  exact (meshNodes_finds_members_iff hm (running_launched ..) (by simp)).mpr (Or.inl (by decide))

/-- A single server on another subnet is recorded at an address that it does not have. -/
theorem single_server_misplaced :
    ¬ ∀ (H : HashString) (servers agents : ℕ) (subnet : Text) (members : OrdMap Text Member)
      (durable : Text → Bool) (run : RunDir) (flags : List Text),
      mkMembers H servers agents subnet = some members → Running durable servers members run →
        "--node".toList ∉ flags → FindsMembers flags run members := by
  intro hall
  obtain ⟨members, hm⟩ := Option.isSome_iff_exists.mp
    (show (mkMembers collidingHash 1 0 "10.1.2.0/24".toList).isSome = true by decide +kernel)
  have hrun := running_launched (fun _ => false) 1 members
  have hfinds := hall _ _ _ _ members _ _ [] hm hrun (by simp)
  exact absurd (subnet_of_findsMembers hm hrun (by simp) hfinds) (by decide)

end Kubenyx.Snap
