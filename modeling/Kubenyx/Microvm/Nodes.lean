import Kubenyx.Common.Traverse
import Kubenyx.Lb.Args
import Kubenyx.Microvm.Members

/-!
# Nodes of a mesh

Model of `mkNode` (lib/microvm.nix:159-241) with the options that the modules derive from what it
sets: all assertions of the modules on a node (modules/default.nix:273-333, control-plane.nix:222-227,
pki.nix:134-139, datastore.nix:646-710, storage.nix:103-113, lb.nix:78-91), the load balancer of an
agent (modules/lb.nix:33-131), and the handoff of the credentials, which has one port for each agent
(guests/microvm.nix:27-57, 247-269, 589-627, 719-797).

Every name, address and port comes from the members alone. Servers and agents compute the ports
of the handoff apart from each other.

* `index_memberList`: the members are numbered from zero without a gap.
* `mesh_fits`: a mesh of any size is put together right.
-/

namespace Kubenyx.Microvm

open Kubenyx.Common
open Kubenyx.Net (Role hostPort isV6)

/-! ## What a node is -/

/-- `datastore.backend`. -/
inductive Backend where
  | kineSqlite
  | etcdMem
  | etcd
  deriving DecidableEq

/-- `network.cni`. -/
inductive Cni where
  | bridge
  | external
  deriving DecidableEq

/-- What `mkNode` sets of a node, and what the guest profile leaves at its default. -/
structure NodeModule where
  hostName : Text
  mac : Text
  tap : Text
  address : Text
  gateway : Text
  nodes : OrdMap Text Member
  role : Role
  controlPlaneEndpoint : Option Text
  backend : Backend
  joinProbeSec : Option ℕ
  hostGateway : Text
  cni : Cni
  allocateNodeCidrs : Bool
  extraApiserverSANs : List Text
  /-- Whether `storage.localVolumes` is set. -/
  localVolumes : Bool

/-- `fixedWidthString 2 "0" (toLower (toHexString n))`; `none` where the number is too wide. -/
def hex2 (n : ℕ) : Option Text :=
  let digits := Nat.toDigits 16 n
  if digits.length ≤ 2 then some (List.replicate (2 - digits.length) '0' ++ digits) else none

/-- The servers among members. -/
def serverCount (members : OrdMap Text Member) : ℕ :=
  (members.values.filter (·.role = .server)).length

/-- The `controlPlaneEndpoint` of a node (lib/microvm.nix:203-216): that of an agent is the only
    server. It does not evaluate where no member has that name. -/
def endpointFor (members : OrdMap Text Member) (n : Member) : Option (Option Text) :=
  if n.role = .agent ∧ ¬ 1 < serverCount members then
    (members.get? "server".toList).map fun m => some m.address
  else some none

/-- `mkNode` (lib/microvm.nix:159-241); `none` if it does not evaluate. -/
def mkNode (H : HashString) (members : OrdMap Text Member) (joinProbeSec : ℕ) (subnet name : Text) :
    Option NodeModule := do
  let sn ← subnetFor H subnet
  let n ← members.get? name
  let octet ← hex2 (n.index + 1)
  let endpoint ← endpointFor members n
  some {
    hostName := name
    mac := "02:00:00:00:00:".toList ++ octet
    tap := sn.tapFor n.index
    address := n.address
    gateway := sn.gateway
    nodes := members
    role := n.role
    controlPlaneEndpoint := endpoint
    backend := if 1 < serverCount members ∧ n.role = .server then .etcd else .etcdMem
    joinProbeSec := if 1 < serverCount members ∧ n.role = .server then some joinProbeSec else none
    hostGateway := sn.gateway
    cni := .bridge
    allocateNodeCidrs := false
    extraApiserverSANs := []
    localVolumes := false }

/-! ## What the modules make of it -/

theorem mod_lt_256 (n : ℕ) : n % 256 < 256 := Nat.mod_lt n (by decide)

/-- A member as `nodes` has it, where its index is of type `ints.between 0 255`. -/
def Member.declared (n : Member) : Net.Node :=
  ⟨some n.address, ⟨n.index % 256, mod_lt_256 n.index⟩, n.role⟩

namespace NodeModule

variable (m : NodeModule)

/-- `lb.enable` (modules/lb.nix:37). -/
def lbEnable : Bool :=
  m.role = .agent ∧ 1 < serverCount m.nodes ∧ m.controlPlaneEndpoint = none

/-- The members as `nodes` has them. -/
def declared : List (Text × Net.Node) := m.nodes.entries.map fun e => (e.1, e.2.declared)

theorem nodup_declared : (m.declared.map Prod.fst).Nodup := by
  unfold declared
  rw [List.map_map]
  exact List.pairwise_map.mpr (m.nodes.sorted.imp ne_of_lt)

/-- The options of a node with the defaults of the modules; `none` where a value is not of its
    type. -/
def config : Option Net.Config :=
  if m.nodes.entries.all (·.2.index < 256) then
    some {
      role := m.role
      nodeName := m.hostName
      controlPlaneEndpoint := m.controlPlaneEndpoint
      lbEnable := m.lbEnable
      clusterCidr := "10.244.0.0/16".toList
      serviceCidr := "10.96.0.0/16".toList
      nodes := m.declared
      nodup := m.nodup_declared }
  else none

/-- The assertion of modules/control-plane.nix:222-227. -/
def controlPlaneAssertions : List Bool :=
  if m.role = .server then [decide (m.allocateNodeCidrs = false ∨ m.cni = .external)] else []

/-- The assertion of modules/pki.nix:134-139. -/
def pkiAssertions : List Bool :=
  [m.extraApiserverSANs.all fun s => "DNS:".toList.isPrefixOf s || "IP:".toList.isPrefixOf s]

/-- The assertion of modules/storage.nix:103-113. -/
def storageAssertions : List Bool := if m.localVolumes then [decide (m.role = .server)] else []

/-- The assertions of modules/datastore.nix:646-710, on a volatile datastore. -/
def datastoreAssertions : List Bool :=
  if m.role = .server then
    decide (m.backend ≠ .kineSqlite ∨ serverCount m.nodes = 1) ::
      if m.backend = .etcdMem then [true, decide (serverCount m.nodes = 1)] else []
  else []

/-- The assertions of modules/lb.nix:78-91. -/
def lbAssertions : List Bool :=
  if m.lbEnable then [decide (m.role = .agent), decide (1 < serverCount m.nodes), true] else []

/-- `serverAddrs` of the guest profile (guests/microvm.nix:47-49). -/
def serverAddrs : List Text :=
  (m.nodes.values.filter (·.role = .server)).map Member.address

/-- The arguments of `kubenyx-lb` (modules/lb.nix:107-131). -/
def lbArgs : List Text :=
  "--listen".toList :: ("127.0.0.1:".toList ++ decimal 6444) ::
  "--probe-interval-ms".toList :: decimal 500 ::
  "--fail-threshold".toList :: decimal 3 ::
  "--probe-cert".toList :: "/var/lib/kubenyx/pki/kubelet.crt".toList ::
  "--probe-key".toList :: "/var/lib/kubenyx/pki/kubelet.key".toList ::
    m.serverAddrs.flatMap fun a => ["--backend".toList, hostPort a 6443]

/-! ## The handoff of the credentials -/

/-- `agentNames` (guests/microvm.nix:31). -/
def agentNames : List Text := (m.nodes.entries.filter (·.2.role = .agent)).map Prod.fst

/-- `agentPort` (guests/microvm.nix:38). -/
def agentPort (name : Text) : ℕ := 10125 + (m.agentNames.findIdx? (· = name)).getD 0

end NodeModule

/-- A socket of the handoff: the port, the address that it answers, and the directory that it
    sends. -/
structure HandoffSocket where
  port : ℕ
  allow : Text
  dir : Text
  deriving DecidableEq

namespace NodeModule

variable (m : NodeModule)

/-- The socket for an agent (guests/microvm.nix:247-269, 589-627). -/
def agentSocket (name : Text) : Option HandoffSocket :=
  (m.nodes.get? name).map fun n =>
    ⟨m.agentPort name, n.address ++ "/32".toList, "/var/lib/kubenyx/pki/nodes/".toList ++ name⟩

/-- The sockets of a server; `none` where one does not evaluate. -/
def agentSockets : Option (List HandoffSocket) :=
  if m.role = .server then m.agentNames.mapM m.agentSocket else some []

/-- The URLs that an agent fetches its credentials from (guests/microvm.nix:739-791). -/
def fetchUrls : List Text :=
  match m.controlPlaneEndpoint with
  | some e => ["http://".toList ++ hostPort e (m.agentPort m.hostName)]
  | none => m.serverAddrs.map fun a => "http://".toList ++ hostPort a (m.agentPort m.hostName)

end NodeModule

/-! ## A mesh that is put together right -/

/-- The assertions on a node hold, and every pod subnet is inside the cluster block. -/
structure Evaluates (m : NodeModule) (cfg : Net.Config) : Prop where
  config : m.config = some cfg
  satisfied : cfg.satisfied
  controlPlane : ∀ b ∈ m.controlPlaneAssertions, b = true
  pki : ∀ b ∈ m.pkiAssertions, b = true
  storage : ∀ b ∈ m.storageAssertions, b = true
  datastore : ∀ b ∈ m.datastoreAssertions, b = true
  lb : ∀ b ∈ m.lbAssertions, b = true
  cluster : Writes cfg.clusterCidr (Net.sixteen 0 (by decide))
  room : ∀ n ∈ cfg.nodes, Net.HasRoom (Net.sixteen 0 (by decide)) n.2.index

/-- Nothing of one node is of another, or of the host. -/
structure Apart (m m' : NodeModule) : Prop where
  mac : m.mac ≠ m'.mac
  tap : m.tap ≠ m'.tap
  address : m.address ≠ m'.address
  gateway : m.address ≠ m'.gateway

/-- An agent asks a server at the one port where its own credentials are sent, and to its own
    address. -/
def HandsOff (s a : NodeModule) : Prop :=
  ∃ ks, s.agentSockets = some ks ∧ ∃ k ∈ ks, (∀ k' ∈ ks, k'.port = k.port → k' = k) ∧
    10124 < k.port ∧ k.port < 65536 ∧
    k.allow = a.address ++ "/32".toList ∧
    k.dir = "/var/lib/kubenyx/pki/nodes/".toList ++ a.hostName ∧
    "http://".toList ++ hostPort s.address k.port ∈ a.fetchUrls

/-- The balancer of an agent runs where there are several servers, and has all of them. -/
structure Balances (servers : ℕ) (members : OrdMap Text Member) (a : NodeModule) : Prop where
  enable : a.lbEnable = true ↔ 1 < servers
  backends : ∃ cfg, Lb.parseArgs a.lbArgs = .ok cfg ∧
    ∀ b, b ∈ cfg.backends ↔ ∃ s ∈ members.entries, s.2.role = .server ∧ b = hostPort s.2.address 6443

/-! ## Numbering -/

section numbering

variable {servers agents : ℕ} {netPrefix : Text} {e e' : Text × Member}

/-- The members are numbered from zero without a gap. -/
theorem index_memberList (servers agents : ℕ) (netPrefix : Text) :
    (memberList servers agents netPrefix).map (·.2.index) = List.range (servers + agents) := by
  unfold memberList
  rw [List.map_append, List.map_map, List.map_map]
  refine List.ext_getElem (by simp) fun i hi _ => ?_
  rw [List.getElem_range, List.getElem_append]
  split_ifs with hserver
  · rw [List.getElem_map, List.getElem_range']
    show 1 + 1 * i - 1 = i
    omega
  · rw [List.getElem_map, List.getElem_range', List.length_map, List.length_range']
    rw [List.length_map, List.length_range'] at hserver
    show servers + (1 + 1 * (i - servers)) - 1 = i
    omega

/-- An address follows from the number. -/
theorem address_memberList (h : e ∈ memberList servers agents netPrefix) :
    e.2.address = netPrefix ++ '.' :: decimal (e.2.index + 2) := by
  rcases List.mem_append.mp h with h | h
  · obtain ⟨i, hi, rfl⟩ := List.mem_map.mp h
    have hpos := (List.mem_range'_1.mp hi).1
    show netPrefix ++ '.' :: decimal (1 + i) = netPrefix ++ '.' :: decimal (i - 1 + 2)
    rw [show i - 1 + 2 = 1 + i by omega]
  · obtain ⟨i, hi, rfl⟩ := List.mem_map.mp h
    have hpos := (List.mem_range'_1.mp hi).1
    show netPrefix ++ '.' :: decimal (1 + servers + i) =
      netPrefix ++ '.' :: decimal (servers + i - 1 + 2)
    rw [show servers + i - 1 + 2 = 1 + servers + i by omega]

theorem length_servers (servers agents : ℕ) (netPrefix : Text) :
    ((memberList servers agents netPrefix).filter (·.2.role = .server)).length = servers := by
  have hservers : ∀ l : List ℕ, (l.map (serverFor servers netPrefix)).filter (·.2.role = .server) =
      l.map (serverFor servers netPrefix) := fun l =>
    List.filter_eq_self.mpr fun e he => by
      obtain ⟨i, -, rfl⟩ := List.mem_map.mp he
      rfl
  have hagents : ∀ l : List ℕ, (l.map (agentFor servers netPrefix)).filter (·.2.role = .server) =
      [] := fun l =>
    List.filter_eq_nil_iff.mpr fun e he => by
      obtain ⟨i, -, rfl⟩ := List.mem_map.mp he
      simp [agentFor]
  unfold memberList
  rw [List.filter_append, hservers, hagents, List.append_nil, List.length_map, List.length_range']

/-- Two digits are enough for the numbers of a mesh. -/
theorem hex2_eq {n : ℕ} (h : n < 256) :
    hex2 n = some [Nat.digitChar (n / 16), Nat.digitChar (n % 16)] := by
  unfold hex2
  by_cases hsmall : n < 16
  · rw [Nat.toDigits_of_lt_base hsmall, Nat.div_eq_of_lt hsmall, Nat.mod_eq_of_lt hsmall]
    rfl
  · have hhigh : n / 16 < 16 := by omega
    rw [Nat.toDigits_of_base_le (by decide) (by omega), Nat.toDigits_of_lt_base hhigh]
    rfl

theorem hex2_injective {n n' : ℕ} (h : n < 256) (h' : n' < 256) (heq : hex2 n = hex2 n') :
    n = n' := by
  have hdigit : ∀ a < 16, ∀ b < 16, Nat.digitChar a = Nat.digitChar b → a = b := by decide
  rw [hex2_eq h, hex2_eq h'] at heq
  simp only [Option.some.injEq, List.cons.injEq, and_true] at heq
  obtain ⟨hhigh, hlow⟩ := heq
  have hquot := hdigit _ (by omega) _ (by omega) hhigh
  have hrem := hdigit _ (by omega) _ (by omega) hlow
  omega

end numbering

/-! ## The members of a mesh -/

section mesh

variable {H : HashString} {servers agents : ℕ} {subnet : Text} {members : OrdMap Text Member}

theorem gateway_of_subnetFor {sn : Subnet} (h : subnetFor H subnet = some sn) :
    sn.gateway = sn.netPrefix ++ ".1".toList := by
  unfold subnetFor at h
  cases hoctets : octets subnet with
  | none =>
    rw [hoctets] at h
    cases h
  | some netPrefix =>
    rw [hoctets] at h
    obtain rfl := Option.some.inj h
    rfl

/-- Members of one name are one member. -/
theorem eq_of_name {e e' : Text × Member} (he : e ∈ members.entries) (he' : e' ∈ members.entries)
    (hname : e.1 = e'.1) : e = e' := by
  refine Prod.ext hname (Option.some.inj ?_)
  rw [← OrdMap.mem_entries_iff.mp he, ← OrdMap.mem_entries_iff.mp he', hname]

/-- What is known of a mesh. -/
structure MeshOf (H : HashString) (servers agents : ℕ) (subnet : Text)
    (members : OrdMap Text Member) (sn : Subnet) : Prop where
  one_le : 1 ≤ servers
  fit : 2 + servers + agents ≤ 254
  subnet : subnetFor H subnet = some sn
  perm : members.entries.Perm (memberList servers agents sn.netPrefix)

theorem MeshOf.of_mkMembers (h : mkMembers H servers agents subnet = some members) :
    ∃ sn, MeshOf H servers agents subnet members sn := by
  obtain ⟨hone, hfit, sn, hsn, hperm⟩ := mkMembers_perm h
  exact ⟨sn, hone, hfit, hsn, hperm⟩

namespace MeshOf

variable {sn : Subnet} {e e' : Text × Member}

theorem mem (h : MeshOf H servers agents subnet members sn) (he : e ∈ members.entries) :
    e ∈ memberList servers agents sn.netPrefix :=
  h.perm.subset he

theorem index_lt (h : MeshOf H servers agents subnet members sn) (he : e ∈ members.entries) :
    e.2.index < servers + agents := by
  have hmem := List.mem_map_of_mem (f := fun e : Text × Member => e.2.index) (h.mem he)
  rw [index_memberList] at hmem
  exact List.mem_range.mp hmem

theorem nodup_index (h : MeshOf H servers agents subnet members sn) :
    (members.entries.map (·.2.index)).Nodup := by
  rw [(h.perm.map _).nodup_iff, index_memberList]
  exact List.nodup_range

theorem index_ne (h : MeshOf H servers agents subnet members sn) (he : e ∈ members.entries)
    (he' : e' ∈ members.entries) (hne : e.1 ≠ e'.1) : e.2.index ≠ e'.2.index := fun heq =>
  hne (congrArg Prod.fst (List.inj_on_of_nodup_map h.nodup_index he he' heq))

theorem address (h : MeshOf H servers agents subnet members sn) (he : e ∈ members.entries) :
    e.2.address = sn.netPrefix ++ '.' :: decimal (e.2.index + 2) :=
  address_memberList (h.mem he)

theorem serverCount_eq (h : MeshOf H servers agents subnet members sn) :
    serverCount members = servers := by
  have hperm := (h.perm.filter (·.2.role = .server)).length_eq
  rw [length_servers] at hperm
  unfold serverCount OrdMap.values
  rw [List.filter_map, List.length_map]
  exact hperm

/-- The addresses are of IPv4. -/
theorem isV6_address (h : MeshOf H servers agents subnet members sn) (he : e ∈ members.entries) :
    isV6 e.2.address = false := by
  obtain ⟨-, hplain, -⟩ := octets_spec (octets_of_subnetFor h.subnet)
  have haddress : Plain e.2.address := by
    rw [h.address he]
    exact hplain.append (List.forall_mem_cons.mpr ⟨rfl, plain_decimal _⟩)
  unfold isV6
  rw [List.contains_eq_mem]
  exact decide_eq_false (haddress.not_mem (by decide))

/-- A member of a mesh with one server, of that role. -/
theorem only_server (h : MeshOf H servers agents subnet members sn) (hone : servers = 1)
    (he : e ∈ members.entries) (hrole : e.2.role = .server) : e.1 = "server".toList := by
  rcases List.mem_append.mp (h.mem he) with hmem | hmem
  · obtain ⟨i, -, rfl⟩ := List.mem_map.mp hmem
    exact if_pos hone
  · obtain ⟨i, -, rfl⟩ := List.mem_map.mp hmem
    cases hrole

/-- There is a server, of the name of the only one if it is. -/
theorem exists_server (h : MeshOf H servers agents subnet members sn) :
    ∃ e ∈ members.entries, e.2.role = .server := by
  refine ⟨serverFor servers sn.netPrefix 1, h.perm.symm.subset (List.mem_append_left _ ?_), rfl⟩
  exact List.mem_map_of_mem (List.mem_range'_1.mpr ⟨le_rfl, by have := h.one_le; omega⟩)

/-- The endpoint evaluates: the only server has its name. -/
theorem endpointFor_eq (h : MeshOf H servers agents subnet members sn) (n : Member) :
    ∃ s ∈ members.entries, s.2.role = .server ∧ endpointFor members n =
      some (if n.role = .agent ∧ servers = 1 then some s.2.address else none) := by
  obtain ⟨s, hs, hrole⟩ := h.exists_server
  have hone := h.one_le
  refine ⟨s, hs, hrole, ?_⟩
  unfold endpointFor
  rw [h.serverCount_eq]
  by_cases hagent : n.role = .agent ∧ servers = 1
  · have hserver : members.get? "server".toList = some s.2 := by
      rw [← h.only_server hagent.2 hs hrole]
      exact OrdMap.mem_entries_iff.mp hs
    rw [if_pos ⟨hagent.1, by omega⟩, if_pos hagent, hserver]
    rfl
  · rw [if_neg fun hc => hagent ⟨hc.1, by omega⟩, if_neg hagent]

end MeshOf

/-- What `mkNode` makes of a member. -/
structure NodeOf (servers : ℕ) (members : OrdMap Text Member) (sn : Subnet) (e : Text × Member)
    (m : NodeModule) : Prop where
  hostName : m.hostName = e.1
  mac : ∃ octet, hex2 (e.2.index + 1) = some octet ∧ m.mac = "02:00:00:00:00:".toList ++ octet
  tap : m.tap = sn.tapFor e.2.index
  address : m.address = e.2.address
  gateway : m.gateway = sn.gateway
  nodes : m.nodes = members
  role : m.role = e.2.role
  endpoint : ∃ s ∈ members.entries, s.2.role = .server ∧
    m.controlPlaneEndpoint = if e.2.role = .agent ∧ servers = 1 then some s.2.address else none
  backend : m.backend = if 1 < servers ∧ e.2.role = .server then .etcd else .etcdMem
  allocateNodeCidrs : m.allocateNodeCidrs = false
  extraApiserverSANs : m.extraApiserverSANs = []
  localVolumes : m.localVolumes = false

variable {sn : Subnet} {e e' : Text × Member} {m m' : NodeModule}

/-- Every member evaluates to a node. -/
theorem MeshOf.exists_node (h : MeshOf H servers agents subnet members sn)
    (he : e ∈ members.entries) (joinProbeSec : ℕ) :
    ∃ m, mkNode H members joinProbeSec subnet e.1 = some m ∧ NodeOf servers members sn e m := by
  have hlt := h.index_lt he
  have hfit := h.fit
  have hget : members.get? e.1 = some e.2 := OrdMap.mem_entries_iff.mp he
  have hoctet := hex2_eq (show e.2.index + 1 < 256 by omega)
  obtain ⟨s, hs, hrole, hendpoint⟩ := h.endpointFor_eq e.2
  unfold mkNode
  simp only [h.subnet, hget, hoctet, hendpoint, h.serverCount_eq, Option.bind_eq_bind,
    Option.bind_some]
  exact ⟨_, rfl, rfl, ⟨_, hoctet, rfl⟩, rfl, rfl, rfl, rfl, rfl, ⟨s, hs, hrole, rfl⟩, rfl, rfl, rfl,
    rfl⟩

/-! ## The assertions -/

/-- `unique` keeps a list without repetitions. -/
theorem unique_of_nodup {l : List (Fin 256)} (h : l.Nodup) : Net.Config.unique l = l := by
  have hfold : ∀ (l acc : List (Fin 256)), (acc ++ l).Nodup →
      l.foldl (fun acc e => if e ∈ acc then acc else acc ++ [e]) acc = acc ++ l := by
    intro l
    induction l with
    | nil => exact fun acc _ => (List.append_nil acc).symm
    | cons e l ih =>
      intro acc hnodup
      have hnotMem : e ∉ acc := fun hmem =>
        List.disjoint_of_nodup_append hnodup hmem List.mem_cons_self
      rw [List.foldl_cons, if_neg hnotMem, ih, List.append_assoc, List.singleton_append]
      rwa [List.append_assoc, List.singleton_append]
  exact hfold l [] h

theorem lbEnable_iff (h : MeshOf H servers agents subnet members sn)
    (hm : NodeOf servers members sn e m) : m.lbEnable = true ↔ e.2.role = .agent ∧ 1 < servers := by
  obtain ⟨s, -, -, hendpoint⟩ := hm.endpoint
  unfold NodeModule.lbEnable
  rw [hm.role, hm.nodes, h.serverCount_eq, hendpoint, decide_eq_true_eq]
  refine ⟨fun hc => ⟨hc.1, hc.2.1⟩, fun hc => ⟨hc.1, hc.2, if_neg ?_⟩⟩
  omega

/-- What the options of a node are. -/
structure ConfigOf (members : OrdMap Text Member) (e : Text × Member) (m : NodeModule)
    (cfg : Net.Config) : Prop where
  config : m.config = some cfg
  role : cfg.role = e.2.role
  nodeName : cfg.nodeName = e.1
  endpoint : cfg.controlPlaneEndpoint = m.controlPlaneEndpoint
  lbEnable : cfg.lbEnable = m.lbEnable
  clusterCidr : cfg.clusterCidr = "10.244.0.0/16".toList
  serviceCidr : cfg.serviceCidr = "10.96.0.0/16".toList
  nodes : cfg.nodes = members.entries.map fun e => (e.1, e.2.declared)

theorem exists_config (h : MeshOf H servers agents subnet members sn)
    (hm : NodeOf servers members sn e m) : ∃ cfg, ConfigOf members e m cfg := by
  have hfit := h.fit
  have hall : m.nodes.entries.all (·.2.index < 256) = true := by
    rw [hm.nodes]
    refine List.all_eq_true.mpr fun e he => decide_eq_true ?_
    have hlt := h.index_lt he
    omega
  refine ⟨_, if_pos hall, hm.role, hm.hostName, rfl, rfl, rfl, rfl, ?_⟩
  rw [← hm.nodes]
  rfl

/-- A lookup in entries whose names differ. -/
theorem lookup_eq_of_mem {V : Type} {l : List (Text × V)} (hnodup : (l.map Prod.fst).Nodup)
    {k : Text} {v : V} (h : (k, v) ∈ l) : l.lookup k = some v := by
  induction l with
  | nil => cases h
  | cons x l ih =>
    rw [List.map_cons, List.nodup_cons] at hnodup
    rcases List.mem_cons.mp h with rfl | h
    · exact List.lookup_cons_self
    · have hne : k ≠ x.1 := fun heq => hnodup.1 (heq ▸ List.mem_map_of_mem h)
      rw [List.lookup_cons, beq_false_of_ne hne]
      exact ih hnodup.2 h

section config

variable {cfg : Net.Config}

theorem ConfigOf.mem (hcfg : ConfigOf members e m cfg) {n : Text × Net.Node} (hn : n ∈ cfg.nodes) :
    ∃ e ∈ members.entries, n = (e.1, e.2.declared) := by
  rw [hcfg.nodes] at hn
  obtain ⟨e, he, rfl⟩ := List.mem_map.mp hn
  exact ⟨e, he, rfl⟩

theorem ConfigOf.cluster (hcfg : ConfigOf members e m cfg) :
    Writes cfg.clusterCidr (Net.sixteen 0 (by decide)) := by
  rw [hcfg.clusterCidr]
  exact Net.writes_sixteen 0 (by decide)

theorem serverCount_config (h : MeshOf H servers agents subnet members sn)
    (hcfg : ConfigOf members e m cfg) : cfg.serverCount = servers := by
  rw [← h.serverCount_eq]
  unfold Net.Config.serverCount Net.Config.nodeValues serverCount OrdMap.values
  rw [hcfg.nodes, List.map_map, List.filter_map, List.filter_map, List.length_map, List.length_map]
  rfl

theorem nodup_index_config (h : MeshOf H servers agents subnet members sn)
    (hcfg : ConfigOf members e m cfg) : (cfg.nodeValues.map Net.Node.index).Nodup := by
  have hfit := h.fit
  have hvalues : (cfg.nodeValues.map Net.Node.index).map (fun i : Fin 256 => i.val) =
      members.entries.map (·.2.index) := by
    unfold Net.Config.nodeValues
    rw [hcfg.nodes, List.map_map, List.map_map, List.map_map]
    refine List.map_congr_left fun e he => Nat.mod_eq_of_lt ?_
    have hlt := h.index_lt he
    omega
  refine List.Nodup.of_map (fun i : Fin 256 => i.val) ?_
  rw [hvalues]
  exact h.nodup_index

/-- The assertions of modules/default.nix. -/
theorem satisfied_config (h : MeshOf H servers agents subnet members sn) (he : e ∈ members.entries)
    (hm : NodeOf servers members sn e m) (hcfg : ConfigOf members e m cfg) : cfg.satisfied := by
  have hone := h.one_le
  have hself : cfg.nodes.lookup cfg.nodeName = some e.2.declared := by
    refine lookup_eq_of_mem cfg.nodup ?_
    rw [hcfg.nodes, hcfg.nodeName]
    exact List.mem_map_of_mem he
  unfold Net.Config.satisfied Net.Config.assertions
  simp only [List.forall_mem_cons]
  refine ⟨?_, ?_, ?_, ?_, ?_, ?_, ?_, ?_, List.forall_mem_nil _⟩
  · show some (cfg.nodes.lookup cfg.nodeName).isSome = some true
    rw [hself]
    rfl
  · show some (decide ((cfg.nodes.lookup cfg.nodeName).elim cfg.role Net.Node.role = cfg.role)) = _
    rw [hself, hcfg.role]
    exact congrArg some (decide_eq_true rfl)
  · show some (decide (1 ≤ cfg.serverCount)) = _
    rw [serverCount_config h hcfg, decide_eq_true hone]
  · -- an agent has the only server as its endpoint, or the balancer
    show some (decide (cfg.role ≠ .agent ∨ cfg.controlPlaneEndpoint ≠ none ∨ cfg.lbEnable = true)) = _
    rw [hcfg.role, hcfg.endpoint, hcfg.lbEnable]
    refine congrArg some (decide_eq_true ?_)
    obtain ⟨s, -, -, hvalue⟩ := hm.endpoint
    by_cases hagent : e.2.role = .agent
    · by_cases hsingle : servers = 1
      · refine Or.inr (Or.inl ?_)
        rw [hvalue, if_pos ⟨hagent, hsingle⟩]
        exact Option.some_ne_none _
      · exact Or.inr (Or.inr ((lbEnable_iff h hm).mpr ⟨hagent, by omega⟩))
    · exact Or.inl hagent
  · show some (decide (cfg.nodeValues.length =
      (Net.Config.unique (cfg.nodeValues.map Net.Node.index)).length)) = _
    rw [unique_of_nodup (nodup_index_config h hcfg), List.length_map]
    exact congrArg some (decide_eq_true rfl)
  · show some (decide (cfg.nodes.length = 1 ∨ cfg.nodeValues.all (·.address ≠ none) = true)) = _
    refine congrArg some (decide_eq_true (Or.inr (List.all_eq_true.mpr fun n hn => ?_)))
    obtain ⟨x, hx, rfl⟩ := List.mem_map.mp hn
    obtain ⟨e, -, rfl⟩ := hcfg.mem hx
    rfl
  · show some (decide (isV6 cfg.serviceCidr = isV6 cfg.clusterCidr ∧ _ = true)) = _
    rw [hcfg.serviceCidr, hcfg.clusterCidr]
    refine congrArg some (decide_eq_true ⟨rfl, List.all_eq_true.mpr fun a ha => ?_⟩)
    obtain ⟨n, hn, haddress⟩ := List.mem_filterMap.mp ha
    obtain ⟨x, hx, rfl⟩ := List.mem_map.mp hn
    obtain ⟨e, he, rfl⟩ := hcfg.mem hx
    obtain rfl := Option.some.inj haddress
    exact decide_eq_true (h.isV6_address he)
  · show (Net.cidrPrefix cfg.clusterCidr).map _ = _
    rw [(Net.writes_read hcfg.cluster).2.1, Option.map_some]
    refine congrArg some (Bool.and_eq_true_iff.mpr ⟨?_, List.all_eq_true.mpr fun n _ => ?_⟩)
    · rw [Net.carve_eq hcfg.cluster]
      rfl
    · rw [Net.carve_eq hcfg.cluster]
      exact decide_eq_true n.index.isLt

end config

/-- What the profile leaves at its default meets the assertions about it. -/
theorem defaults_hold (hm : NodeOf servers members sn e m) :
    (∀ b ∈ m.controlPlaneAssertions, b = true) ∧ (∀ b ∈ m.pkiAssertions, b = true) ∧
      ∀ b ∈ m.storageAssertions, b = true := by
  unfold NodeModule.controlPlaneAssertions NodeModule.pkiAssertions NodeModule.storageAssertions
  rw [hm.allocateNodeCidrs, hm.extraApiserverSANs, hm.localVolumes]
  simp

/-- A quorum has the backend for it, a single server need not. -/
theorem datastore_holds (h : MeshOf H servers agents subnet members sn)
    (hm : NodeOf servers members sn e m) : ∀ b ∈ m.datastoreAssertions, b = true := by
  have hone := h.one_le
  unfold NodeModule.datastoreAssertions
  rw [hm.role, hm.backend, hm.nodes, h.serverCount_eq]
  by_cases hserver : e.2.role = .server
  · by_cases hmany : 1 < servers
    · simp [hserver, hmany]
    · have hsingle : servers = 1 := by omega
      simp [hserver, hsingle]
  · simp [hserver]

theorem lb_holds (h : MeshOf H servers agents subnet members sn)
    (hm : NodeOf servers members sn e m) : ∀ b ∈ m.lbAssertions, b = true := by
  unfold NodeModule.lbAssertions
  rw [hm.role, hm.nodes, h.serverCount_eq]
  split_ifs with henable
  · obtain ⟨hagent, hmany⟩ := (lbEnable_iff h hm).mp henable
    simp [hagent, hmany]
  · simp

theorem evaluates (h : MeshOf H servers agents subnet members sn) (he : e ∈ members.entries)
    (hm : NodeOf servers members sn e m) : ∃ cfg, Evaluates m cfg := by
  obtain ⟨cfg, hcfg⟩ := exists_config h hm
  obtain ⟨hcontrolPlane, hpki, hstorage⟩ := defaults_hold hm
  refine ⟨cfg, hcfg.config, satisfied_config h he hm hcfg, hcontrolPlane, hpki, hstorage,
    datastore_holds h hm, lb_holds h hm, hcfg.cluster, fun n _ => Or.inl ?_⟩
  have hbound := n.2.index.isLt
  show 0 / 2 ^ 8 + _ < 2 ^ 8
  omega

/-! ## Who fetches from whom -/

theorem mem_agentNames (hm : NodeOf servers members sn e m) {name : Text} :
    name ∈ m.agentNames ↔ ∃ a ∈ members.entries, a.2.role = .agent ∧ a.1 = name := by
  unfold NodeModule.agentNames
  rw [hm.nodes, List.mem_map]
  simp only [List.mem_filter, decide_eq_true_eq, and_assoc]

/-- The ports are in the range of port numbers. -/
theorem agentPort_lt (h : MeshOf H servers agents subnet members sn)
    (hm : NodeOf servers members sn e m) (name : Text) : m.agentPort name < 65536 := by
  have hfit := h.fit
  have hlength : m.agentNames.length ≤ servers + agents := by
    unfold NodeModule.agentNames
    rw [hm.nodes, List.length_map]
    refine (List.length_filter_le _ _).trans (le_of_eq ?_)
    have hcount := congrArg List.length (index_memberList servers agents sn.netPrefix)
    rw [List.length_map, List.length_range] at hcount
    rw [h.perm.length_eq, hcount]
  unfold NodeModule.agentPort
  cases hfind : m.agentNames.findIdx? (· = name) with
  | none =>
    show 10125 + 0 < 65536
    omega
  | some i =>
    obtain ⟨hlt, -⟩ := List.findIdx?_eq_some_iff_getElem.mp hfind
    show 10125 + i < 65536
    omega

/-- All nodes compute the same port for an agent. -/
theorem agentPort_eq (hm : NodeOf servers members sn e m) (hm' : NodeOf servers members sn e' m')
    (name : Text) : m.agentPort name = m'.agentPort name := by
  unfold NodeModule.agentPort NodeModule.agentNames
  rw [hm.nodes, hm'.nodes]

/-- No two agents have the same port. -/
theorem agentPort_injective {name name' : Text} (hname : name ∈ m.agentNames)
    (hname' : name' ∈ m.agentNames) (h : m.agentPort name = m.agentPort name') : name = name' := by
  have hfind : ∀ x ∈ m.agentNames, ∃ i,
      m.agentNames.findIdx? (· = x) = some i ∧ m.agentNames[i]? = some x := by
    intro x hx
    have hsome := List.findIdx?_eq_some_of_exists (p := (decide <| · = x)) ⟨x, hx, decide_eq_true rfl⟩
    obtain ⟨hlt, hat, -⟩ := List.findIdx?_eq_some_iff_getElem.mp hsome
    exact ⟨_, hsome, List.getElem?_eq_some_iff.mpr ⟨hlt, of_decide_eq_true hat⟩⟩
  obtain ⟨i, hi, hget⟩ := hfind name hname
  obtain ⟨j, hj, hget'⟩ := hfind name' hname'
  unfold NodeModule.agentPort at h
  rw [hi, hj] at h
  obtain rfl : i = j := Nat.add_left_cancel h
  exact Option.some.inj (hget.symm.trans hget')

/-- A server has one socket for each agent. -/
theorem exists_agentSockets (hm : NodeOf servers members sn e m) (hrole : e.2.role = .server) :
    ∃ ks, m.agentSockets = some ks ∧ ∀ k, k ∈ ks ↔ ∃ a ∈ members.entries, a.2.role = .agent ∧
      k = ⟨m.agentPort a.1, a.2.address ++ "/32".toList,
        "/var/lib/kubenyx/pki/nodes/".toList ++ a.1⟩ := by
  have hsocket : ∀ a ∈ members.entries, m.agentSocket a.1 = some ⟨m.agentPort a.1,
      a.2.address ++ "/32".toList, "/var/lib/kubenyx/pki/nodes/".toList ++ a.1⟩ := fun a ha => by
    unfold NodeModule.agentSocket
    rw [hm.nodes, show members.get? a.1 = some a.2 from OrdMap.mem_entries_iff.mp ha]
    rfl
  have hall : ∀ name ∈ m.agentNames, ∃ k, m.agentSocket name = some k := fun name hname => by
    obtain ⟨a, ha, -, rfl⟩ := (mem_agentNames hm).mp hname
    exact ⟨_, hsocket a ha⟩
  obtain ⟨ks, hks⟩ := exists_of_mapM.mpr hall
  unfold NodeModule.agentSockets
  rw [if_pos (hm.role.trans hrole)]
  refine ⟨ks, hks, fun k => ?_⟩
  rw [mem_of_mapM hks]
  constructor
  · rintro ⟨name, hname, hk⟩
    obtain ⟨a, ha, hagent, rfl⟩ := (mem_agentNames hm).mp hname
    exact ⟨a, ha, hagent, (Option.some.inj ((hsocket a ha).symm.trans hk)).symm⟩
  · rintro ⟨a, ha, hagent, rfl⟩
    exact ⟨a.1, (mem_agentNames hm).mpr ⟨a, ha, hagent, rfl⟩, hsocket a ha⟩

theorem mem_serverAddrs (hm : NodeOf servers members sn e m) {address : Text} :
    address ∈ m.serverAddrs ↔ ∃ s ∈ members.entries, s.2.role = .server ∧ s.2.address = address := by
  unfold NodeModule.serverAddrs OrdMap.values
  rw [hm.nodes, List.mem_map]
  simp only [List.mem_filter, List.mem_map, decide_eq_true_eq]
  constructor
  · rintro ⟨_, ⟨⟨s, hs, rfl⟩, hrole⟩, haddress⟩
    exact ⟨s, hs, hrole, haddress⟩
  · rintro ⟨s, hs, hrole, haddress⟩
    exact ⟨s.2, ⟨⟨s, hs, rfl⟩, hrole⟩, haddress⟩

/-- An agent asks every server, at its own port. -/
theorem mem_fetchUrls (h : MeshOf H servers agents subnet members sn)
    (hm : NodeOf servers members sn e m) (hrole : e.2.role = .agent) {url : Text} :
    url ∈ m.fetchUrls ↔ ∃ s ∈ members.entries, s.2.role = .server ∧
      url = "http://".toList ++ hostPort s.2.address (m.agentPort e.1) := by
  obtain ⟨s, hs, hserver, hendpoint⟩ := hm.endpoint
  unfold NodeModule.fetchUrls
  rw [hendpoint, hm.hostName]
  by_cases hsingle : servers = 1
  · rw [if_pos ⟨hrole, hsingle⟩, List.mem_singleton]
    refine ⟨fun hurl => ⟨s, hs, hserver, hurl⟩, ?_⟩
    rintro ⟨s', hs', hserver', rfl⟩
    have hname : s.1 = s'.1 :=
      (h.only_server hsingle hs hserver).trans (h.only_server hsingle hs' hserver').symm
    rw [eq_of_name hs hs' hname]
  · rw [if_neg fun hc => hsingle hc.2, List.mem_map]
    constructor
    · rintro ⟨address, haddress, rfl⟩
      obtain ⟨s, hs, hserver, rfl⟩ := (mem_serverAddrs hm).mp haddress
      exact ⟨s, hs, hserver, rfl⟩
    · rintro ⟨s, hs, hserver, rfl⟩
      exact ⟨_, (mem_serverAddrs hm).mpr ⟨s, hs, hserver, rfl⟩, rfl⟩

/-! ## The load balancer -/

/-- A flag with its value. -/
theorem parseFlags_cons {cfg cfg' : Lb.Cfg} {flag v : Text} {args : List Text}
    {set : Lb.Cfg → Text → Text → Except Text Lb.Cfg} (hflag : flag ≠ "--probe-http".toList)
    (hset : Lb.valueFlags.lookup flag = some set) (h : set cfg flag v = .ok cfg') :
    Lb.parseFlags cfg (flag :: v :: args) = Lb.parseFlags cfg' args := by
  rw [Lb.parseFlags, if_neg hflag, hset]
  simp only [h]

theorem number_decimal {bits n : ℕ} (flag : Text) (h : n < 2 ^ bits) :
    Lb.number bits flag (decimal n) = .ok n := by
  unfold Lb.number
  rw [parseUnsigned_decimal h]

theorem parseFlags_interval {cfg : Lb.Cfg} {args : List Text} {n : ℕ} (h : n < 2 ^ 64) :
    Lb.parseFlags cfg ("--probe-interval-ms".toList :: decimal n :: args) =
      Lb.parseFlags { cfg with probeInterval := n } args := by
  refine parseFlags_cons (by decide) rfl ?_
  show (Lb.number 64 _ (decimal n)).map _ = _
  rw [number_decimal _ h]
  rfl

theorem parseFlags_threshold {cfg : Lb.Cfg} {args : List Text} {n : ℕ} (h : n < 2 ^ 32) :
    Lb.parseFlags cfg ("--fail-threshold".toList :: decimal n :: args) =
      Lb.parseFlags { cfg with failThreshold := n } args := by
  refine parseFlags_cons (by decide) rfl ?_
  show (Lb.number 32 _ (decimal n)).map _ = _
  rw [number_decimal _ h]
  rfl

theorem parseFlags_backends (cfg : Lb.Cfg) (bs : List Text) :
    Lb.parseFlags cfg (bs.flatMap fun b => ["--backend".toList, b]) =
      .ok { cfg with backends := cfg.backends ++ bs } := by
  induction bs generalizing cfg with
  | nil =>
    rw [List.append_nil]
    rfl
  | cons b bs ih =>
    have hstep : Lb.parseFlags cfg ((b :: bs).flatMap fun b => ["--backend".toList, b]) =
        Lb.parseFlags { cfg with backends := cfg.backends ++ [b] }
          (bs.flatMap fun b => ["--backend".toList, b]) := rfl
    rw [hstep, ih, List.append_assoc, List.singleton_append]

/-- The arguments are accepted, with all servers as backends. -/
theorem parseArgs_lbArgs (h : MeshOf H servers agents subnet members sn)
    (hm : NodeOf servers members sn e m) : Lb.parseArgs m.lbArgs = .ok { Lb.Cfg.default with
      backends := m.serverAddrs.map (hostPort · 6443)
      probeCert := some "/var/lib/kubenyx/pki/kubelet.crt".toList
      probeKey := some "/var/lib/kubenyx/pki/kubelet.key".toList } := by
  have hbackends : m.serverAddrs.flatMap (fun a => ["--backend".toList, hostPort a 6443]) =
      (m.serverAddrs.map (hostPort · 6443)).flatMap fun b => ["--backend".toList, b] := by
    rw [List.flatMap_map]
  have hflags : Lb.parseFlags .default m.lbArgs = Lb.parseFlags { Lb.Cfg.default with
      probeCert := some "/var/lib/kubenyx/pki/kubelet.crt".toList
      probeKey := some "/var/lib/kubenyx/pki/kubelet.key".toList }
      (m.serverAddrs.flatMap fun a => ["--backend".toList, hostPort a 6443]) := by
    unfold NodeModule.lbArgs
    rw [parseFlags_cons (by decide) rfl rfl, parseFlags_interval (by decide),
      parseFlags_threshold (by decide), parseFlags_cons (by decide) rfl rfl,
      parseFlags_cons (by decide) rfl rfl]
    rfl
  obtain ⟨s, hs, hserver⟩ := h.exists_server
  have hne : m.serverAddrs ≠ [] :=
    List.ne_nil_of_mem ((mem_serverAddrs hm).mpr ⟨s, hs, hserver, rfl⟩)
  unfold Lb.parseArgs
  rw [hflags, hbackends, parseFlags_backends]
  refine (if_neg ?_).trans ((if_neg ?_).trans (if_neg ?_))
  · exact fun hnil => hne (List.map_eq_nil_iff.mp hnil)
  · show ¬ 3 = 0
    decide
  · show ¬ true ≠ true
    decide

/-! ## The mesh -/

theorem MeshOf.nodeOf (h : MeshOf H servers agents subnet members sn) (he : e ∈ members.entries)
    {joinProbeSec : ℕ} (hm : mkNode H members joinProbeSec subnet e.1 = some m) :
    NodeOf servers members sn e m := by
  obtain ⟨m', hm', hnode⟩ := h.exists_node he joinProbeSec
  obtain rfl : m' = m := Option.some.inj (hm'.symm.trans hm)
  exact hnode

/-- The gateway's address comes before those of the nodes. -/
theorem address_ne_gateway (h : MeshOf H servers agents subnet members sn)
    (he : e ∈ members.entries) (hm : NodeOf servers members sn e m) : m.address ≠ sn.gateway := by
  rw [hm.address, h.address he, gateway_of_subnetFor h.subnet]
  intro heq
  have hone : decimal (e.2.index + 2) = decimal 1 :=
    List.cons_injective (List.append_cancel_left heq)
  have hsame := decimal_injective hone
  omega

theorem apart (h : MeshOf H servers agents subnet members sn) (he : e ∈ members.entries)
    (he' : e' ∈ members.entries) (hne : e.1 ≠ e'.1) (hm : NodeOf servers members sn e m)
    (hm' : NodeOf servers members sn e' m') : Apart m m' := by
  have hindex := h.index_ne he he' hne
  have hlt := h.index_lt he
  have hlt' := h.index_lt he'
  have hfit := h.fit
  constructor
  · obtain ⟨octet, hoctet, hmac⟩ := hm.mac
    obtain ⟨octet', hoctet', hmac'⟩ := hm'.mac
    rw [hmac, hmac']
    intro heq
    rw [List.append_cancel_left heq, ← hoctet'] at hoctet
    have hsame := hex2_injective (by omega) (by omega) hoctet
    omega
  · rw [hm.tap, hm'.tap]
    exact fun heq => hindex (decimal_injective (List.append_cancel_left heq))
  · rw [hm.address, hm'.address, h.address he, h.address he']
    intro heq
    have hsame := decimal_injective (List.cons_injective (List.append_cancel_left heq))
    omega
  · rw [hm'.gateway]
    exact address_ne_gateway h he hm

theorem handsOff {s a : Text × Member} {ms ma : NodeModule}
    (h : MeshOf H servers agents subnet members sn) (ha : a ∈ members.entries)
    (hs : s ∈ members.entries) (hagent : a.2.role = .agent) (hserver : s.2.role = .server)
    (hma : NodeOf servers members sn a ma) (hms : NodeOf servers members sn s ms) :
    HandsOff ms ma := by
  obtain ⟨ks, hks, hmem⟩ := exists_agentSockets hms hserver
  have hname : ∀ x ∈ members.entries, x.2.role = .agent → x.1 ∈ ms.agentNames :=
    fun x hx hrole => (mem_agentNames hms).mpr ⟨x, hx, hrole, rfl⟩
  refine ⟨ks, hks, _, (hmem _).mpr ⟨a, ha, hagent, rfl⟩, ?_, ?_, agentPort_lt h hms _, ?_, ?_, ?_⟩
  · intro k' hk' hport
    obtain ⟨a', ha', hagent', rfl⟩ := (hmem k').mp hk'
    have hsame := agentPort_injective (hname a' ha' hagent') (hname a ha hagent) hport
    rw [eq_of_name ha' ha hsame]
  · show 10124 < 10125 + _
    omega
  · rw [hma.address]
  · rw [hma.hostName]
  · refine (mem_fetchUrls h hma hagent).mpr ⟨s, hs, hserver, ?_⟩
    rw [hms.address, agentPort_eq hms hma]

theorem balances (h : MeshOf H servers agents subnet members sn) (hagent : e.2.role = .agent)
    (hm : NodeOf servers members sn e m) : Balances servers members m where
  enable := (lbEnable_iff h hm).trans (and_iff_right hagent)
  backends := by
    refine ⟨_, parseArgs_lbArgs h hm, fun b => ?_⟩
    rw [List.mem_map]
    constructor
    · rintro ⟨address, haddress, rfl⟩
      obtain ⟨s, hs, hserver, rfl⟩ := (mem_serverAddrs hm).mp haddress
      exact ⟨s, hs, hserver, rfl⟩
    · rintro ⟨s, hs, hserver, rfl⟩
      exact ⟨_, (mem_serverAddrs hm).mpr ⟨s, hs, hserver, rfl⟩, rfl⟩

/-- A mesh of any number of servers and agents that fits in its subnet is put together right: every
    node evaluates and has not the gateway's address, no two nodes share an address or the name of
    an interface, every agent is handed its own credentials by all servers and by nothing else, and
    its balancer has all of them. -/
theorem mesh_fits (h : mkMembers H servers agents subnet = some members) (joinProbeSec : ℕ) :
    (∀ e ∈ members.entries, ∃ m cfg, mkNode H members joinProbeSec subnet e.1 = some m ∧
      Evaluates m cfg ∧ m.address ≠ m.gateway) ∧
    (∀ e ∈ members.entries, ∀ e' ∈ members.entries, e.1 ≠ e'.1 → ∀ m m',
      mkNode H members joinProbeSec subnet e.1 = some m →
      mkNode H members joinProbeSec subnet e'.1 = some m' → Apart m m') ∧
    ∀ a ∈ members.entries, a.2.role = .agent → ∀ ma,
      mkNode H members joinProbeSec subnet a.1 = some ma →
        Balances servers members ma ∧
        (∀ s ∈ members.entries, s.2.role = .server → ∀ ms,
          mkNode H members joinProbeSec subnet s.1 = some ms → HandsOff ms ma) ∧
        ∀ url ∈ ma.fetchUrls, ∃ s ∈ members.entries, s.2.role = .server ∧
          url = "http://".toList ++ hostPort s.2.address (ma.agentPort a.1) := by
  obtain ⟨sn, hmesh⟩ := MeshOf.of_mkMembers h
  refine ⟨fun e he => ?_, fun e he e' he' hne m m' hm hm' => ?_, fun a ha hagent ma hma => ?_⟩
  · obtain ⟨m, hm, hnode⟩ := hmesh.exists_node he joinProbeSec
    obtain ⟨cfg, hcfg⟩ := evaluates hmesh he hnode
    exact ⟨m, cfg, hm, hcfg, hnode.gateway ▸ address_ne_gateway hmesh he hnode⟩
  · exact apart hmesh he he' hne (hmesh.nodeOf he hm) (hmesh.nodeOf he' hm')
  · have hnode := hmesh.nodeOf ha hma
    refine ⟨balances hmesh hagent hnode, fun s hs hserver ms hms => ?_, fun url hurl => ?_⟩
    · exact handsOff hmesh ha hs hagent hserver hnode (hmesh.nodeOf hs hms)
    · exact (mem_fetchUrls hmesh hnode hagent).mp hurl

end mesh

/-- Three servers and two agents on the default subnet. -/
theorem mesh_fits_quorum :
    ∃ members, mkMembers collidingHash 3 2 defaultSubnet = some members ∧
      (∀ e ∈ members.entries, ∃ m cfg, mkNode collidingHash members 3 defaultSubnet e.1 = some m ∧
        Evaluates m cfg ∧ m.address ≠ m.gateway) ∧
      ∀ a ∈ members.entries, a.2.role = .agent → ∀ ma,
        mkNode collidingHash members 3 defaultSubnet a.1 = some ma → Balances 3 members ma := by
  obtain ⟨members, h⟩ := Option.isSome_iff_exists.mp
    (show (mkMembers collidingHash 3 2 defaultSubnet).isSome = true by decide +kernel)
  refine ⟨members, h, (mesh_fits h 3).1, fun a ha hagent ma hma => ?_⟩
  exact ((mesh_fits h 3).2.2 a ha hagent ma hma).1

end Kubenyx.Microvm
