import Kubenyx.Pki.Issue
import Kubenyx.Pki.Kubeconfig
import Kubenyx.Pki.Mint

/-!
# Server mode

Model of `server` (lib.rs:486-733): the trust roots, checked or minted, then the leaves,
the bundles for the other nodes and the kubeconfigs.

* `issueAll_allWrites`: what comes after the trust roots writes no custody file.
* `server_writes`: a run in the volatile posture makes the writes of the minting and
  then none to a custody file.
-/

namespace Kubenyx.Pki

open Kubenyx.Common

variable {R : Rcgen}

/-! ## The program -/

/-- What a run of the server takes from outside: the address that `detect_node_ip`
    returns, what the minting takes, and a clock and a key for each leaf in turn. -/
structure ServerInput (R : Rcgen) where
  detectedIp : Text
  mint : MintGen R
  now : ℕ → Clock
  leaf : ℕ → Gen R

/-- `node_ip` (lib.rs:488-492). -/
def nodeIp (cfg : Cfg) (detected : Text) : Text :=
  (cfg.nodeAddress.filter (· ≠ [])).getD detected

/-- The trust roots (lib.rs:494-525): shipped ones are checked, others are minted. -/
def trustRoots (R : Rcgen) (cfg : Cfg) (g : MintGen R) : Prog Unit := do
  if cfg.requireShippedCa then
    let missing ← missingFiles CUSTODY_FILES
    if missing ≠ [] then
      die ("durable posture (balanced profile + persistent datastore) requires an operator-shipped CA bundle, but ".toList ++
        cfg.pki ++ " is missing: ".toList ++ List.intercalate [' '] missing ++
        ". Mint it offline with `kubenyx-pki mint-ca --out ca-bundle/`, ship the bundle's files into this directory over the operator channel, and keep the original wherever secrets live. Refusing to self-mint: a re-minted CA would partition the cluster's trust.".toList)
  else mint R g

/-- `api_san` (lib.rs:536-547). -/
def apiSan (cfg : Cfg) (ip : Text) : List Text :=
  ["DNS:kubernetes".toList, "DNS:kubernetes.default".toList, "DNS:kubernetes.default.svc".toList,
    "DNS:kubernetes.default.svc.".toList ++ cfg.clusterDomain, "DNS:".toList ++ cfg.nodeName,
    "DNS:localhost".toList, "IP:127.0.0.1".toList, "IP:".toList ++ cfg.serviceIp,
    "IP:".toList ++ ip] ++ cfg.extraSans

/-- The leaves of every server (lib.rs:549-621). -/
def clusterLeaves (cfg : Cfg) (ip : Text) (ca fpCa : Issuer R) : List (Leaf R) :=
  [⟨ca, "apiserver".toList, "kube-apiserver".toList, none, [.serverAuth], apiSan cfg ip⟩,
    ⟨ca, "apiserver-kubelet-client".toList, "kube-apiserver-kubelet-client".toList, none,
      [.clientAuth], []⟩,
    ⟨fpCa, "front-proxy-client".toList, "front-proxy-client".toList, none, [.clientAuth], []⟩,
    ⟨ca, "admin".toList, "kubenyx-admin".toList, some "kubenyx:cluster-admins".toList,
      [.clientAuth], []⟩,
    ⟨ca, "bootstrap".toList, "kubenyx-bootstrap".toList, some "system:masters".toList,
      [.clientAuth], []⟩,
    ⟨ca, "controller-manager".toList, "system:kube-controller-manager".toList, none,
      [.clientAuth], []⟩,
    ⟨ca, "scheduler".toList, "system:kube-scheduler".toList, none, [.clientAuth], []⟩,
    ⟨ca, "kube-proxy".toList, "system:kube-proxy".toList, none, [.clientAuth], []⟩,
    ⟨ca, "coredns".toList, "system:coredns".toList, none, [.clientAuth], []⟩,
    ⟨ca, "healthz".toList, "kubenyx-healthz".toList, none, [.clientAuth], []⟩]

/-- The leaves of a server with its own etcd (lib.rs:623-648). -/
def etcdLeaves (cfg : Cfg) (ca : Issuer R) : List (Leaf R) :=
  [⟨ca, "etcd-server".toList, "kube-etcd".toList, none, [.serverAuth, .clientAuth],
      ["DNS:localhost".toList, "IP:127.0.0.1".toList] ++ cfg.etcdSans⟩,
    ⟨ca, "apiserver-etcd-client".toList, "kube-apiserver-etcd-client".toList, none,
      [.clientAuth], []⟩]

/-- The base of a path of a node. -/
def nodePath (node file : Text) : Text := "nodes/".toList ++ node ++ "/".toList ++ file

/-- The leaves of a declared node (lib.rs:651-675). -/
def nodeLeaves (cfg : Cfg) (ip : Text) (ca : Issuer R) (node : NodeName × Option Text) :
    List (Leaf R) :=
  let name := node.1.1
  let addr : List Text :=
    match node.2 with
    | some a => ["IP:".toList ++ a]
    | none => if name = cfg.nodeName then ["IP:".toList ++ ip] else []
  [⟨ca, nodePath name "kubelet".toList, "system:node:".toList ++ name, some "system:nodes".toList,
      [.clientAuth], []⟩,
    ⟨ca, nodePath name "kubelet-server".toList, "system:node:".toList ++ name, none, [.serverAuth],
      ["DNS:".toList ++ name, "IP:127.0.0.1".toList] ++ addr⟩]

/-- All leaves, in the order of their issuing. -/
def serverLeaves (cfg : Cfg) (ip : Text) (ca fpCa : Issuer R) : List (Leaf R) :=
  clusterLeaves cfg ip ca fpCa ++ (if cfg.etcd then etcdLeaves cfg ca else []) ++
    cfg.nodes.flatMap (nodeLeaves cfg ip ca)

/-- `fs::copy` into the bundle of a node (lib.rs:685-694). -/
def packageFile (node f : Text) : Prog Unit := do
  match ← FileProg.readFile (inPki f) with
  | none =>
    die ("package ".toList ++ node ++ "/".toList ++ f ++ ": ".toList ++ IoError.notFound.display)
  | some c => FileProg.writeFile (inPki (nodePath node f)) c

/-- The bundle of another node (lib.rs:679-695). -/
def packageNode (node : Text) : Prog Unit :=
  ["ca.crt".toList, "kube-proxy.crt".toList, "kube-proxy.key".toList, "coredns.crt".toList,
    "coredns.key".toList].forM (packageFile node)

/-- A kubeconfig of a leaf. -/
def leafKubeconfig (out user base : Text) : Kubeconfig :=
  ⟨out, user, base ++ ".crt".toList, base ++ ".key".toList⟩

/-- The kubeconfigs of a server (lib.rs:698-732), the first ones in the order of the
    `BTreeMap`. -/
def serverKubeconfigs (nodeName : Text) : List Kubeconfig :=
  [leafKubeconfig "admin.kubeconfig".toList "kubenyx-admin".toList "admin".toList,
    leafKubeconfig "bootstrap.kubeconfig".toList "kubenyx-bootstrap".toList "bootstrap".toList,
    leafKubeconfig "controller-manager.kubeconfig".toList "system:kube-controller-manager".toList
      "controller-manager".toList,
    leafKubeconfig "coredns.kubeconfig".toList "system:coredns".toList "coredns".toList,
    leafKubeconfig "kube-proxy.kubeconfig".toList "system:kube-proxy".toList "kube-proxy".toList,
    leafKubeconfig "scheduler.kubeconfig".toList "system:kube-scheduler".toList "scheduler".toList,
    leafKubeconfig "kubelet.kubeconfig".toList ("system:node:".toList ++ nodeName)
      (nodePath nodeName "kubelet".toList)]

/-- What comes after the trust roots (lib.rs:527-733). -/
def issueAll (R : Rcgen) (cfg : Cfg) (x : ServerInput R) : Prog Unit := do
  let ca ← loadIssuer R "ca".toList
  let fpCa ← loadIssuer R "front-proxy-ca".toList
  let issue : Issue := { renewSecs := cfg.renewDays * DAY, leafDays := cfg.leafDays }
  (serverLeaves cfg (nodeIp cfg x.detectedIp) ca fpCa).zipIdx.forM fun p =>
    ensure R issue p.1 (x.now p.2) (x.leaf p.2)
  (cfg.nodes.filter fun node => node.1.1 ≠ cfg.nodeName).forM fun node => packageNode node.1.1
  match ← readToString (inPki "ca.crt".toList) with
  | .error e => panic ("ca.crt: ".toList ++ e.debug)
  | .ok caPem => (serverKubeconfigs cfg.nodeName).forM (writeKubeconfig cfg.pki cfg.apiUrl caPem)

/-- `server` (lib.rs:486-733). -/
def server (R : Rcgen) (cfg : Cfg) (x : ServerInput R) : Prog Unit := do
  trustRoots R cfg x.mint
  issueAll R cfg x

/-! ## What it writes after the trust roots -/

/-- A file is not a custody file. -/
def NotCustody (f : File) : Prop := f ∉ CUSTODY_FILES.map inPki

instance (f : File) : Decidable (NotCustody f) := inferInstanceAs (Decidable (f ∉ _))

theorem NotCustody.ne {f : File} {path : Text} (h : NotCustody f) (hpath : path ∈ CUSTODY_FILES) :
    f ≠ inPki path :=
  fun heq => h (heq ▸ List.mem_map_of_mem hpath)

/-- The files of a leaf are no custody files. -/
def SafeLeaf (name : Text) : Prop :=
  NotCustody (keyFile name) ∧ NotCustody (crtFile name) ∧ NotCustody (fpFile name)

instance (name : Text) : Decidable (SafeLeaf name) :=
  inferInstanceAs (Decidable (NotCustody _ ∧ NotCustody _ ∧ NotCustody _))

/-- Custody files do not begin as the paths of nodes and of fingerprints do. -/
theorem notCustody_of_head {path : Text} {c : Char} (h : path.head? = some c)
    (hc : c = 'n' ∨ c = '.') : NotCustody (inPki path) := by
  intro hmem
  obtain ⟨f, hf, heq⟩ := List.mem_map.mp hmem
  obtain rfl := inPki_injective heq
  have hheads : ∀ f ∈ CUSTODY_FILES, f.head? ≠ some 'n' ∧ f.head? ≠ some '.' := by decide
  rcases hc with rfl | rfl
  · exact (hheads f hf).1 h
  · exact (hheads f hf).2 h

theorem notCustody_fpFile (name : Text) : NotCustody (fpFile name) :=
  notCustody_of_head (c := '.') rfl (Or.inr rfl)

theorem notCustody_nodePath (node file : Text) : NotCustody (inPki (nodePath node file)) :=
  notCustody_of_head (c := 'n') rfl (Or.inl rfl)

theorem notCustody_inKubeconfigs (out : Text) : NotCustody (inKubeconfigs out) := by
  intro hmem
  obtain ⟨f, -, heq⟩ := List.mem_map.mp hmem
  exact inKubeconfigs_ne_inPki out f heq.symm

theorem safeLeaf_nodePath (node file : Text) : SafeLeaf (nodePath node file) :=
  ⟨notCustody_of_head (c := 'n') rfl (Or.inl rfl), notCustody_of_head (c := 'n') rfl (Or.inl rfl),
    notCustody_fpFile _⟩

theorem safeLeaf_serverLeaves {cfg : Cfg} {ip : Text} {ca fpCa : Issuer R} {l : Leaf R}
    (hl : l ∈ serverLeaves cfg ip ca fpCa) : SafeLeaf l.name := by
  have hcluster : ∀ name ∈ ["apiserver".toList, "apiserver-kubelet-client".toList,
      "front-proxy-client".toList, "admin".toList, "bootstrap".toList,
      "controller-manager".toList, "scheduler".toList, "kube-proxy".toList, "coredns".toList,
      "healthz".toList], SafeLeaf name := by decide
  have hetcd : ∀ name ∈ ["etcd-server".toList, "apiserver-etcd-client".toList],
      SafeLeaf name := by decide
  unfold serverLeaves at hl
  rw [List.mem_append, List.mem_append] at hl
  rcases hl with (hl | hl) | hl
  · exact hcluster _ (List.mem_map_of_mem (f := Leaf.name) hl)
  · split_ifs at hl
    · exact hetcd _ (List.mem_map_of_mem (f := Leaf.name) hl)
    · cases hl
  · obtain ⟨node, -, hl⟩ := List.mem_flatMap.mp hl
    simp only [nodeLeaves, List.mem_cons, List.not_mem_nil, or_false] at hl
    rcases hl with rfl | rfl
    · exact safeLeaf_nodePath _ _
    · exact safeLeaf_nodePath _ _

theorem loadIssuer_allWrites {W : File → Content → Prop} (name : Text) :
    (loadIssuer R name).AllWrites W := by
  unfold loadIssuer
  refine (allWrites_readToString _).bind fun crt => ?_
  match crt with
  | .error _ => trivial
  | .ok crt =>
    refine (allWrites_readToString _).bind fun key => ?_
    match key with
    | .error _ => trivial
    | .ok key =>
      simp only
      cases R.keyFromPem key with
      | error e => trivial
      | ok kp =>
        cases R.certFromPem crt with
        | error e => trivial
        | ok cert => trivial

/-- What comes after the trust roots writes no custody file. -/
theorem issueAll_allWrites (cfg : Cfg) (x : ServerInput R) :
    (issueAll R cfg x).AllWrites fun f _ => NotCustody f := by
  unfold issueAll
  refine (loadIssuer_allWrites _).bind fun ca => (loadIssuer_allWrites _).bind fun fpCa => ?_
  have hleaves : ∀ p ∈ (serverLeaves cfg (nodeIp cfg x.detectedIp) ca fpCa).zipIdx,
      (ensure R ⟨cfg.renewDays * DAY, cfg.leafDays⟩ p.1 (x.now p.2) (x.leaf p.2)).AllWrites
        fun f _ => NotCustody f := by
    intro p hp
    obtain ⟨hkey, hcrt, hfp⟩ := safeLeaf_serverLeaves (List.fst_mem_of_mem_zipIdx hp)
    refine (ensure_allWrites _ _ _ _).mono ?_
    rintro f - (rfl | rfl | rfl)
    · exact hkey
    · exact hcrt
    · exact hfp
  have hpackages : ∀ node : Text, (packageNode node).AllWrites fun f _ => NotCustody f := by
    intro node
    refine FileProg.AllWrites.forM fun f _ => (FileProg.AllWrites.readFile _).bind fun c => ?_
    cases c with
    | none => trivial
    | some c => exact FileProg.AllWrites.writeFile (notCustody_nodePath node f)
  refine (FileProg.AllWrites.forM hleaves).bind fun _ => ?_
  refine (FileProg.AllWrites.forM fun node _ => hpackages node.1.1).bind fun _ => ?_
  refine (allWrites_readToString _).bind fun caPem => ?_
  match caPem with
  | .error _ => trivial
  | .ok caPem =>
    refine FileProg.AllWrites.forM fun k _ => (writeKubeconfig_allWrites _ _ _ k).mono ?_
    rintro f c ⟨rfl, -⟩
    exact notCustody_inKubeconfigs k.out

/-- A run in the volatile posture mints, and then writes no custody file. -/
theorem server_writes {cfg : Cfg} (hvolatile : cfg.requireShippedCa = false) (x : ServerInput R)
    (d : Disk) :
    ∃ ws, (server R cfg x).writes d = (mint R x.mint).writes d ++ ws ∧ ∀ w ∈ ws, NotCustody w.1 := by
  have hroots : trustRoots R cfg x.mint = mint R x.mint := by
    unfold trustRoots
    rw [hvolatile]
    rfl
  refine ⟨(issueAll R cfg x).writes (d.apply ((mint R x.mint).writes d)), ?_, ?_⟩
  · unfold server
    rw [hroots, FileProg.writes_bind_of_ok (mint_spec x.mint d).2]
  · exact (issueAll_allWrites cfg x).writes _

end Kubenyx.Pki
