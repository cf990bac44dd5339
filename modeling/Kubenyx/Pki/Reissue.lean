import Kubenyx.Pki.Agent
import Kubenyx.Pki.Server

/-!
# Repeated runs of the server

Runs of `server` (lib.rs:486-733) on a directory that earlier runs have left. Shipped
trust roots are checked and never written. A leaf is left alone if its parameters are
the same and it is not about to expire: all leaves have their own files, also the
fingerprints, whose names have the slashes of the names of the leaves replaced.

* `server_durable`: with shipped trust roots, a run fails before its first write or
  leaves them as they are.
* `leafFiles_disjoint`: different leaves have different files.
* `server_issued`: a completed run leaves every leaf with its fingerprint.
* `server_keeps_leaves`: the next run, whatever its configuration, leaves the leaves
  alone that it would issue alike, as long as they do not expire.
-/

namespace Kubenyx.Pki

open Kubenyx.Common

variable {R : Rcgen}

/-! ## Shipped trust roots -/

section Shipped

variable {cfg : Cfg} {g : MintGen R} {d : Disk}

theorem trustRoots_of_missing (hshipped : cfg.requireShippedCa = true)
    (hmissing : ∃ f ∈ CUSTODY_FILES, isNonEmpty (d (inPki f)) = false) :
    ∃ msg, (trustRoots R cfg g).run d = (.error (.die msg), d) := by
  obtain ⟨f, hf, hempty⟩ := hmissing
  have hne : CUSTODY_FILES.filter (fun f => !isNonEmpty (d (inPki f))) ≠ [] := by
    refine List.ne_nil_of_mem (List.mem_filter.mpr ⟨hf, ?_⟩)
    rw [hempty]
    rfl
  unfold trustRoots
  rw [if_pos hshipped, FileProg.run_bind, run_missingFiles]
  simp only [if_pos hne]
  exact ⟨_, rfl⟩

theorem trustRoots_of_shipped (hshipped : cfg.requireShippedCa = true)
    (hall : ∀ f ∈ CUSTODY_FILES, isNonEmpty (d (inPki f)) = true) :
    (trustRoots R cfg g).run d = (.ok (), d) := by
  unfold trustRoots
  rw [if_pos hshipped, FileProg.run_bind, run_missingFiles, filter_missing_eq_nil hall]
  rfl

/-- With shipped trust roots, a run fails without a write if one of them is missing, and
    otherwise leaves them as they are. -/
theorem server_durable (hshipped : cfg.requireShippedCa = true) (x : ServerInput R) (d : Disk) :
    ((∃ f ∈ CUSTODY_FILES, isNonEmpty (d (inPki f)) = false) →
      (∃ msg, ((server R cfg x).run d).1 = .error (.die msg)) ∧ ((server R cfg x).run d).2 = d) ∧
    ((∀ f ∈ CUSTODY_FILES, isNonEmpty (d (inPki f)) = true) →
      ∀ f ∈ CUSTODY_FILES, ((server R cfg x).run d).2 (inPki f) = d (inPki f)) := by
  unfold server
  rw [FileProg.run_bind]
  constructor
  · intro hmissing
    obtain ⟨msg, hrun⟩ := trustRoots_of_missing (g := x.mint) hshipped hmissing
    rw [hrun]
    exact ⟨⟨msg, rfl⟩, rfl⟩
  · intro hall f hf
    rw [trustRoots_of_shipped hshipped hall]
    exact (issueAll_allWrites cfg x).frame_run (fun _ h => h.ne hf rfl) d

end Shipped

/-- A run at time 0. -/
def ServerInput.sample (k : ℕ) : ServerInput Rcgen.unary :=
  ⟨"10.0.0.1".toList, MintGen.sample k, fun _ => Clock.zero, fun i => Gen.sample (k + 3 + i)⟩

/-- The trust roots were shipped, or only one of them was. -/
theorem server_durable_sample :
    let cfg := { Cfg.sample with requireShippedCa := true }
    let x := ServerInput.sample 0
    let all := shipped CUSTODY_FILES
    let one := shipped ["ca.crt".toList]
    (∀ f ∈ CUSTODY_FILES, ((server Rcgen.unary cfg x).run all).2 (inPki f) = all (inPki f)) ∧
      (∃ msg, ((server Rcgen.unary cfg x).run one).1 = .error (.die msg)) ∧
      ((server Rcgen.unary cfg x).run one).2 = one :=
  ⟨(server_durable rfl _ _).2 (by decide),
    (server_durable rfl _ _).1 ⟨"ca.key".toList, by decide, by decide⟩⟩

/-! ## The files of the leaves -/

/-- The files of a leaf. -/
def leafFiles (name : Text) : Set File := {keyFile name, crtFile name, fpFile name}

/-- The names of the leaves that are not of a node. -/
def CLUSTER_LEAVES : List Text :=
  ["apiserver".toList, "apiserver-kubelet-client".toList, "front-proxy-client".toList,
    "admin".toList, "bootstrap".toList, "controller-manager".toList, "scheduler".toList,
    "kube-proxy".toList, "coredns".toList, "healthz".toList, "etcd-server".toList,
    "apiserver-etcd-client".toList]

/-- The names of the leaves of a node, in its directory. -/
def NODE_LEAVES : List Text := ["kubelet".toList, "kubelet-server".toList]

/-- The names of the leaves of a node. -/
def nodeLeafNames (node : NodeName) : List Text := NODE_LEAVES.map (nodePath node.1)

/-- A name that a leaf can have. -/
def LeafName (name : Text) : Prop := name ∈ CLUSTER_LEAVES ∨ ∃ node, name ∈ nodeLeafNames node

theorem flatten_eq_self {t : Text} (h : '/' ∉ t) : flatten t = t := by
  unfold flatten
  conv_rhs => rw [← List.map_id t]
  refine List.map_congr_left fun c hc => ?_
  have hne : c ≠ '/' := fun hslash => h (hslash ▸ hc)
  rw [if_neg hne, id_eq]

theorem flatten_nodePath {node file : Text} (hnode : '/' ∉ node) (hfile : '/' ∉ file) :
    flatten (nodePath node file) = "nodes_".toList ++ node ++ "_".toList ++ file := by
  unfold nodePath
  have happend : ∀ s t : Text, flatten (s ++ t) = flatten s ++ flatten t :=
    fun s t => List.map_append
  rw [happend, happend, happend, flatten_eq_self hnode, flatten_eq_self hfile]
  rfl

/-- The leaves of a node are told apart by how their names end, those of different nodes by
    what stands before that. -/
theorem nodeLeaf_inj {node node' file file' : Text}
    (hfile : file ∈ NODE_LEAVES)
    (hfile' : file' ∈ NODE_LEAVES)
    (h : "nodes_".toList ++ node ++ "_".toList ++ file =
      "nodes_".toList ++ node' ++ "_".toList ++ file') : node = node' ∧ file = file' := by
  have hlast : file.getLast? = file'.getLast? := by
    have hmem : ∀ f ∈ NODE_LEAVES, f ≠ [] := by decide
    have := congrArg List.getLast? h
    rwa [List.getLast?_append_of_ne_nil _ (hmem _ hfile),
      List.getLast?_append_of_ne_nil _ (hmem _ hfile')] at this
  have hfiles : ∀ f ∈ NODE_LEAVES,
      ∀ f' ∈ NODE_LEAVES, f.getLast? = f'.getLast? → f = f' := by
    decide
  obtain rfl := hfiles file hfile file' hfile' hlast
  exact ⟨List.append_cancel_left (List.append_cancel_right (List.append_cancel_right h)), rfl⟩

theorem flatten_injOn {name name' : Text} (h : LeafName name) (h' : LeafName name')
    (heq : flatten name = flatten name') : name = name' := by
  have hcluster : ∀ name ∈ CLUSTER_LEAVES, flatten name = name ∧ ¬ "nodes_".toList <+: name := by
    decide
  have hslash : ∀ f ∈ NODE_LEAVES, '/' ∉ f := by decide
  have hnode : ∀ name, (∃ node, name ∈ nodeLeafNames node) →
      ∃ node file, file ∈ NODE_LEAVES ∧ name = nodePath node file ∧
        flatten name = "nodes_".toList ++ node ++ "_".toList ++ file := by
    rintro name ⟨node, hname⟩
    obtain ⟨file, hfile, rfl⟩ := List.mem_map.mp hname
    exact ⟨node.1, file, hfile, rfl, flatten_nodePath node.2.1 (hslash file hfile)⟩
  have hstart : ∀ node file : Text,
      "nodes_".toList <+: "nodes_".toList ++ node ++ "_".toList ++ file :=
    fun node file => ⟨node ++ "_".toList ++ file, by simp only [List.append_assoc]⟩
  rcases h with h | h
  · rcases h' with h' | h'
    · rwa [(hcluster name h).1, (hcluster name' h').1] at heq
    · obtain ⟨node, file, -, -, hflat⟩ := hnode name' h'
      rw [(hcluster name h).1, hflat] at heq
      exact absurd (heq ▸ hstart node file) (hcluster name h).2
  · obtain ⟨node, file, hfile, rfl, hflat⟩ := hnode name h
    rcases h' with h' | h'
    · rw [(hcluster name' h').1, hflat] at heq
      exact absurd (heq ▸ hstart node file) (hcluster name' h').2
    · obtain ⟨node', file', hfile', rfl, hflat'⟩ := hnode name' h'
      rw [hflat, hflat'] at heq
      obtain ⟨rfl, rfl⟩ := nodeLeaf_inj hfile hfile' heq
      rfl

/-- No name of a leaf begins with a dot. -/
theorem LeafName.head {name : Text} (h : LeafName name) (t : Text) :
    (name ++ t).head? ≠ some '.' := by
  rcases h with h | ⟨node, h⟩
  · have hheads : ∀ name ∈ CLUSTER_LEAVES, name ≠ [] ∧ name.head? ≠ some '.' := by decide
    rw [List.head?_append_of_ne_nil _ (hheads name h).1]
    exact (hheads name h).2
  · obtain ⟨file, -, rfl⟩ := List.mem_map.mp h
    exact Option.some_injective _ |>.ne (by decide : 'n' ≠ '.')

/-- Different leaves have different files. -/
theorem leafFiles_disjoint {name name' : Text} (h : LeafName name) (h' : LeafName name')
    (hne : name ≠ name') : Disjoint (leafFiles name) (leafFiles name') := by
  have hends : ∀ {s t : Text}, s ++ ".key".toList ≠ t ++ ".crt".toList := by
    intro s t heq
    have hlen : ".key".toList.length = ".crt".toList.length := by decide
    have hne : ".key".toList ≠ ".crt".toList := by decide
    exact hne (List.append_inj_right' heq hlen)
  have hdot : ∀ {name : Text}, LeafName name → ∀ t u : Text, name ++ t ≠ '.' :: u := by
    intro name h t u heq
    exact h.head t (by rw [heq]; rfl)
  rw [Set.disjoint_left]
  rintro f (rfl | rfl | rfl) (hf | hf | hf)
  · exact hne (List.append_cancel_right (inPki_injective hf))
  · exact hends (inPki_injective hf)
  · exact hdot h _ _ (inPki_injective hf)
  · exact hends (inPki_injective hf).symm
  · exact hne (List.append_cancel_right (inPki_injective hf))
  · exact hdot h _ _ (inPki_injective hf)
  · exact hdot h' _ _ (inPki_injective hf).symm
  · exact hdot h' _ _ (inPki_injective hf).symm
  · exact hne (flatten_injOn h h' (List.append_cancel_left (inPki_injective hf)))

theorem leafName_of_mem {cfg : Cfg} {ip : Text} {ca fpCa : Issuer R} {l : Leaf R}
    (hl : l ∈ serverLeaves cfg ip ca fpCa) : LeafName l.name := by
  unfold serverLeaves at hl
  rw [List.mem_append, List.mem_append] at hl
  rcases hl with (hl | hl) | hl
  · have hnames : ∀ name ∈ CLUSTER_LEAVES.take 10, name ∈ CLUSTER_LEAVES :=
      fun _ => List.mem_of_mem_take
    exact Or.inl (hnames _ (List.mem_map_of_mem (f := Leaf.name) hl))
  · split_ifs at hl
    · have hnames : ∀ name ∈ CLUSTER_LEAVES.drop 10, name ∈ CLUSTER_LEAVES :=
        fun _ => List.mem_of_mem_drop
      exact Or.inl (hnames _ (List.mem_map_of_mem (f := Leaf.name) hl))
    · cases hl
  · obtain ⟨node, -, hl⟩ := List.mem_flatMap.mp hl
    exact Or.inr ⟨node.1, List.mem_map_of_mem (f := Leaf.name) hl⟩

/-- The names of the leaves of a configuration. -/
theorem map_name_serverLeaves (cfg : Cfg) (ip : Text) (ca fpCa : Issuer R) :
    (serverLeaves cfg ip ca fpCa).map Leaf.name =
      CLUSTER_LEAVES.take (if cfg.etcd then 12 else 10) ++
        (cfg.nodes.map Prod.fst).flatMap nodeLeafNames := by
  have hnodes : (cfg.nodes.flatMap (nodeLeaves cfg ip ca)).map Leaf.name =
      (cfg.nodes.map Prod.fst).flatMap nodeLeafNames := by
    rw [List.map_flatMap, List.flatMap_map]
    rfl
  unfold serverLeaves
  rw [List.map_append, hnodes]
  cases cfg.etcd with
  | true => rfl
  | false => rfl

/-- The leaves of a node have different names, also from those of other nodes. -/
theorem nodup_nodeLeafNames {nodes : List NodeName} (hnodes : nodes.Nodup) :
    (nodes.flatMap nodeLeafNames).Nodup := by
  rw [List.nodup_flatMap]
  constructor
  · intro node _
    refine List.nodup_cons.mpr ⟨fun hmem => ?_, List.nodup_singleton _⟩
    exact absurd (List.append_cancel_left (List.mem_singleton.mp hmem)) (by decide)
  · refine hnodes.imp fun {node node'} hne => List.disjoint_left.mpr fun name hname hname' => hne ?_
    have hslash : ∀ f ∈ NODE_LEAVES, '/' ∉ f := by decide
    obtain ⟨file, hfile, rfl⟩ := List.mem_map.mp hname
    obtain ⟨file', hfile', heq⟩ := List.mem_map.mp hname'
    have hflat := congrArg flatten heq.symm
    rw [flatten_nodePath node.2.1 (hslash file hfile),
      flatten_nodePath node'.2.1 (hslash file' hfile')] at hflat
    exact Subtype.ext (nodeLeaf_inj hfile hfile' hflat).1

/-- No two leaves have the same name. -/
theorem nodup_names {cfg : Cfg} (hnodes : (cfg.nodes.map Prod.fst).Nodup) (ip : Text)
    (ca fpCa : Issuer R) : ((serverLeaves cfg ip ca fpCa).map Leaf.name).Nodup := by
  have hnodup : CLUSTER_LEAVES.Nodup := by decide +kernel
  have hstart : ∀ name ∈ CLUSTER_LEAVES, ¬ "nodes/".toList <+: name := by decide
  rw [map_name_serverLeaves, List.nodup_append]
  refine ⟨hnodup.sublist (List.take_sublist _ _), nodup_nodeLeafNames hnodes, ?_⟩
  rintro name hname _ hname' rfl
  obtain ⟨node, -, hmem⟩ := List.mem_flatMap.mp hname'
  obtain ⟨file, -, rfl⟩ := List.mem_map.mp hmem
  refine hstart _ (List.mem_of_mem_take hname) ⟨node.1 ++ "/".toList ++ file, ?_⟩
  unfold nodePath
  simp only [List.append_assoc]

/-! ## What comes after the leaves -/

/-- The files that go into the bundle of another node (lib.rs:681-687). -/
def PACKAGED : List Text :=
  ["ca.crt".toList, "kube-proxy.crt".toList, "kube-proxy.key".toList, "coredns.crt".toList,
    "coredns.key".toList]

/-- The bundles and the kubeconfigs (lib.rs:677-733). -/
def distribute (cfg : Cfg) : Prog Unit := do
  (cfg.nodes.filter fun node => node.1.1 ≠ cfg.nodeName).forM fun node => packageNode node.1.1
  match ← readToString (inPki "ca.crt".toList) with
  | .error e => panic ("ca.crt: ".toList ++ e.debug)
  | .ok caPem => (serverKubeconfigs cfg.nodeName).forM (writeKubeconfig cfg.pki cfg.apiUrl caPem)

/-- The leaves, one after the other (lib.rs:549-675). -/
def issueLeaves (R : Rcgen) (cfg : Cfg) (x : ServerInput R) (ca fpCa : Issuer R) : Prog Unit :=
  (serverLeaves cfg (nodeIp cfg x.detectedIp) ca fpCa).zipIdx.forM fun p =>
    ensure R ⟨cfg.renewDays * DAY, cfg.leafDays⟩ p.1 (x.now p.2) (x.leaf p.2)

theorem issueAll_eq (cfg : Cfg) (x : ServerInput R) :
    issueAll R cfg x = (do
      let ca ← loadIssuer R "ca".toList
      let fpCa ← loadIssuer R "front-proxy-ca".toList
      issueLeaves R cfg x ca fpCa
      distribute cfg) := rfl

/-- A file of a bundle or a kubeconfig. -/
def Distributed (f : File) : Prop :=
  (∃ node : NodeName, ∃ file ∈ PACKAGED, f = inPki (nodePath node.1 file)) ∨
    ∃ out, f = inKubeconfigs out

theorem distribute_allWrites (cfg : Cfg) :
    (distribute cfg).AllWrites fun f _ => Distributed f := by
  have hpackages : ∀ node : NodeName, (packageNode node.1).AllWrites fun f _ => Distributed f := by
    intro node
    refine FileProg.AllWrites.forM fun file hfile => (FileProg.AllWrites.readFile _).bind fun c => ?_
    cases c with
    | none => trivial
    | some c => exact FileProg.AllWrites.writeFile (Or.inl ⟨node, file, hfile, rfl⟩)
  unfold distribute
  refine (FileProg.AllWrites.forM fun node _ => hpackages node.1).bind fun _ => ?_
  refine (allWrites_readToString _).bind fun caPem => ?_
  match caPem with
  | .error _ => trivial
  | .ok caPem =>
    refine FileProg.AllWrites.forM fun k _ => (writeKubeconfig_allWrites _ _ _ k).mono ?_
    rintro f c ⟨rfl, -⟩
    exact Or.inr ⟨k.out, rfl⟩

theorem Distributed.notCustody {f : File} (h : Distributed f) : NotCustody f := by
  rcases h with ⟨node, file, -, rfl⟩ | ⟨out, rfl⟩
  · exact notCustody_nodePath _ _
  · exact notCustody_inKubeconfigs out

/-- The last part of a path of a node. -/
theorem nodePath_inj {node node' file file' : Text} (hfile : '/' ∉ file) (hfile' : '/' ∉ file')
    (h : nodePath node file = nodePath node' file') : node = node' ∧ file = file' := by
  have hsplit : ∀ node file : Text, nodePath node file = "nodes/".toList ++ node ++ '/' :: file := by
    intro node file
    unfold nodePath
    simp
  rw [hsplit, hsplit] at h
  obtain ⟨hnode, rfl⟩ := append_cons_inj_right hfile hfile' h
  exact ⟨List.append_cancel_left hnode, rfl⟩

/-- A bundle has no file of a leaf: the leaves of the cluster and the fingerprints are not in
    the directory of a node, and its own leaves have other names there. -/
theorem not_distributed {name : Text} (hname : LeafName name) {f : File} (hf : f ∈ leafFiles name) :
    ¬ Distributed f := by
  have hpackaged : ∀ file ∈ PACKAGED, '/' ∉ file := by decide
  have hother : ∀ leaf ∈ NODE_LEAVES, ∀ ext ∈ [".key".toList, ".crt".toList],
      '/' ∉ leaf ++ ext ∧ leaf ++ ext ∉ PACKAGED := by decide
  have hcluster : ∀ name ∈ CLUSTER_LEAVES, '/' ∉ name := by decide
  have hext : ∀ ext ∈ [".key".toList, ".crt".toList], '/' ∉ ext := by decide
  have hslash : ∀ node file : Text, '/' ∈ nodePath node file := fun node file =>
    List.mem_append_left _ (List.mem_append_left _ (List.mem_append_left _ (by decide)))
  rintro (⟨node, file, hfile, rfl⟩ | ⟨out, rfl⟩)
  · have hpem : ∀ ext ∈ [".key".toList, ".crt".toList], nodePath node.1 file ≠ name ++ ext := by
      intro ext hmem heq
      rcases hname with hname | ⟨node', hname⟩
      · have := hslash node.1 file
        rw [heq, List.mem_append] at this
        exact this.elim (hcluster name hname) (hext ext hmem)
      · obtain ⟨leaf, hleaf, rfl⟩ := List.mem_map.mp hname
        obtain ⟨hno, hnot⟩ := hother leaf hleaf ext hmem
        have hpath : nodePath node'.1 leaf ++ ext = nodePath node'.1 (leaf ++ ext) :=
          List.append_assoc _ _ _
        rw [hpath] at heq
        exact hnot ((nodePath_inj (hpackaged file hfile) hno heq).2 ▸ hfile)
    rcases hf with hf | hf | hf
    · exact hpem _ List.mem_cons_self (inPki_injective hf)
    · exact hpem _ (List.mem_cons_of_mem _ List.mem_cons_self) (inPki_injective hf)
    · have hhead : some 'n' = some '.' := congrArg (fun g => g.path.head?) hf
      exact absurd hhead (by decide)
  · rcases hf with hf | hf | hf <;> exact inKubeconfigs_ne_inPki _ _ hf

/-! ## A completed run -/

/-- The leaf was issued with its parameters, by this run or by an earlier one that this run
    has not found about to expire. -/
structure Issued (R : Rcgen) (i : Issue) (l : Leaf R) (now : Clock) (g : Gen R) (d : Disk) :
    Prop where
  crt : ∃ pem na, d (crtFile l.name) = some (.text pem) ∧ notAfterTs R pem = some na ∧
    (now.secs + i.renewSecs < na ∨ na = g.after.secs + i.leafDays * DAY)
  key : (d (keyFile l.name)).isSome = true
  fp : ∃ prev, d (fpFile l.name) = some (.text prev) ∧ trimEnd prev = l.want

section Issued

variable {i : Issue} {l : Leaf R} {now : Clock} {g : Gen R} {d d' : Disk}

/-- What the files of a leaf hold when the run finds them up to date. -/
theorem leafCurrent_iff : leafCurrent R i l now d = true ↔
    (∃ pem na, d (crtFile l.name) = some (.text pem) ∧ notAfterTs R pem = some na ∧
      now.secs + i.renewSecs < na) ∧ (d (keyFile l.name)).isSome = true ∧
    ∃ prev, d (fpFile l.name) = some (.text prev) ∧ trimEnd prev = l.want := by
  unfold leafCurrent upToDate
  constructor
  · intro h
    split at h
    · next pem prev hcrt hkey hfp =>
      rw [Bool.and_eq_true, decide_eq_true_eq] at h
      obtain ⟨hwant, hna⟩ := h
      cases hts : notAfterTs R pem with
      | none =>
        rw [hts] at hna
        cases hna
      | some na =>
        rw [hts] at hna
        exact ⟨⟨pem, na, decodeText_eq_ok hcrt, hts, of_decide_eq_true hna⟩, hkey, prev,
          decodeText_eq_ok hfp, hwant⟩
    · cases h
  · rintro ⟨⟨pem, na, hcrt, hna, hlt⟩, hkey, prev, hfp, hwant⟩
    rw [hcrt, hkey, hfp, decodeText_text, decodeText_text]
    simp only [hwant, hna, decide_true, Bool.true_and, Option.elim_some, gt_iff_lt, hlt]

theorem Issued.congr (h : Issued R i l now g d) (heq : Set.EqOn d' d (leafFiles l.name)) :
    Issued R i l now g d' where
  crt := by rw [heq (Or.inr (Or.inl rfl))]; exact h.crt
  key := by rw [heq (Or.inl rfl)]; exact h.key
  fp := by rw [heq (Or.inr (Or.inr rfl))]; exact h.fp

/-- A run of `ensure` that returns leaves the leaf issued. -/
theorem ensure_issued (hR : R.Lawful) (h : ((ensure R i l now g).run d).1 = .ok ()) :
    Issued R i l now g ((ensure R i l now g).run d).2 := by
  rw [FileProg.run_files]
  cases hcur : leafCurrent R i l now d with
  | true =>
    rw [(ensure_of_current hcur).1, Files.apply_nil]
    obtain ⟨⟨pem, na, hcrt, hna, hlt⟩, hkey, hfp⟩ := leafCurrent_iff.mp hcur
    exact ⟨⟨pem, na, hcrt, hna, Or.inl hlt⟩, hkey, hfp⟩
  | false =>
    obtain ⟨hwrites, hrun⟩ := ensure_of_stale (g := g) hcur
    rw [hrun] at h
    cases hissued : issued R i l g with
    | error e =>
      rw [hissued] at h
      cases h
    | ok c =>
      rw [hissued] at hwrites
      have hall : leafWrites l g c = (leafWrites l g c).take 3 := rfl
      obtain ⟨hkey, hcrt, hfp⟩ := apply_leafWrites rfl d (l := l) (g := g) (c := c) (m := 3) (by omega)
      rw [hwrites]
      show Issued R i l now g (d.apply (leafWrites l g c))
      rw [hall]
      refine ⟨⟨R.certPem c, c.notAfter, hcrt, notAfterTs_certPem hR c, ?_⟩, ?_, l.want, hfp,
        trimEnd_want l⟩
      · exact Or.inr (issued_cert hissued).2.2.2.2.2.2
      · rw [hkey]
        rfl

end Issued

/-- A run of `ensure` keeps the files of the other leaves. -/
theorem ensure_keeps {S : Set File} {d₀ : Disk} (i : Issue) (l : Leaf R) (now : Clock) (g : Gen R)
    (hS : Disjoint S (leafFiles l.name)) : (ensure R i l now g).Keeps S d₀ := by
  refine FileProg.Keeps.of_allWrites (ensure_allWrites i l now g) fun f hf _ hwrite => ?_
  exact Set.disjoint_left.mp hS hf hwrite

/-- Of a leaf that is up to date it keeps all files. -/
theorem ensure_keeps_of_current {S : Set File} {d₀ : Disk} {i : Issue} {l : Leaf R} {now : Clock}
    {g : Gen R} (hS : leafFiles l.name ⊆ S) (hcur : leafCurrent R i l now d₀ = true) :
    (ensure R i l now g).Keeps S d₀ := by
  intro d hd
  have hcur' : leafCurrent R i l now d = true := by
    unfold leafCurrent at hcur ⊢
    rwa [hd (hS (Or.inl rfl)), hd (hS (Or.inr (Or.inl rfl))), hd (hS (Or.inr (Or.inr rfl)))]
  rw [FileProg.run_files, (ensure_of_current hcur').1, Files.apply_nil]
  exact hd

/-- Where names are different, so are the files of the leaves, one by one. -/
theorem pairwise_names {cfg : Cfg} (hnodes : (cfg.nodes.map Prod.fst).Nodup) (ip : Text)
    (ca fpCa : Issuer R) :
    (serverLeaves cfg ip ca fpCa).zipIdx.Pairwise fun p q => p.1.name ≠ q.1.name := by
  have hnodup := nodup_names hnodes ip ca fpCa
  rw [List.Nodup, List.pairwise_map, ← List.zipIdx_map_fst 0 (serverLeaves cfg ip ca fpCa),
    List.pairwise_map] at hnodup
  exact hnodup

/-- A leaf of a list is known by its name. -/
theorem eq_of_name {ls : List (Leaf R)} (hnames : (ls.map Leaf.name).Nodup) {p : Leaf R × ℕ}
    (hp : p ∈ ls.zipIdx) {l : Leaf R} {j : ℕ} (hl : ls[j]? = some l) (h : p.1.name = l.name) :
    p = (l, j) := by
  have hp' : ls[p.2]? = some p.1 := List.mk_mem_zipIdx_iff_getElem?.mp hp
  have hj : j = p.2 := by
    have hlt : j < (ls.map Leaf.name).length := by
      rw [List.length_map]
      exact (List.getElem?_eq_some_iff.mp hl).1
    refine (List.getElem?_inj hlt hnames).mp ?_
    rw [List.getElem?_map, List.getElem?_map, hl, hp', Option.map_some, Option.map_some, h]
  subst hj
  exact Prod.ext (Option.some.inj (hp'.symm.trans hl)) rfl

/-- After the leaves were issued, each of them is. -/
theorem issueLeaves_issued (hR : R.Lawful) {cfg : Cfg} (hnodes : (cfg.nodes.map Prod.fst).Nodup)
    {x : ServerInput R} {ca fpCa : Issuer R} {d : Disk}
    (h : ((issueLeaves R cfg x ca fpCa).run d).1 = .ok ()) :
    ∀ p ∈ (serverLeaves cfg (nodeIp cfg x.detectedIp) ca fpCa).zipIdx,
      Issued R ⟨cfg.renewDays * DAY, cfg.leafDays⟩ p.1 (x.now p.2) (x.leaf p.2)
        ((issueLeaves R cfg x ca fpCa).run d).2 := by
  refine FileProg.forM_establishes (fun p _ d hok => ensure_issued hR hok) ?_ h
  refine (pairwise_names hnodes _ ca fpCa).imp_of_mem fun {p q} hp hq hne d hissued => ?_
  have hp := leafName_of_mem (List.fst_mem_of_mem_zipIdx hp)
  have hq := leafName_of_mem (List.fst_mem_of_mem_zipIdx hq)
  exact hissued.congr (ensure_keeps _ _ _ _ (leafFiles_disjoint hp hq hne) d fun _ _ => rfl)

/-- The files of the CAs. -/
def CA_FILES : List Text := CUSTODY_FILES.take 4

theorem NotCustody.notMem_caFiles {f : File} (h : NotCustody f) : f ∉ CA_FILES.map inPki :=
  fun hf => h (List.map_subset _ (List.take_subset _ _) hf)

theorem leafFiles_notCustody {cfg : Cfg} {ip : Text} {ca fpCa : Issuer R} {l : Leaf R}
    (hl : l ∈ serverLeaves cfg ip ca fpCa) : ∀ f ∈ leafFiles l.name, NotCustody f := by
  obtain ⟨hkey, hcrt, hfp⟩ := safeLeaf_serverLeaves hl
  rintro f (rfl | rfl | rfl)
  · exact hkey
  · exact hcrt
  · exact hfp

theorem loadIssuer_run {name : Text} (d : Disk) : ((loadIssuer R name).run d).2 = d := by
  funext f
  exact (loadIssuer_allWrites (W := fun _ _ => False) name).frame_run (fun _ h => h) d

/-- What is loaded is in the two files. -/
theorem loadIssuer_congr {name : Text} {d d' : Disk}
    (hcrt : d' (inPki (name ++ ".crt".toList)) = d (inPki (name ++ ".crt".toList)))
    (hkey : d' (inPki (name ++ ".key".toList)) = d (inPki (name ++ ".key".toList))) :
    ((loadIssuer R name).run d').1 = ((loadIssuer R name).run d).1 := by
  unfold loadIssuer
  rw [run_readToString_bind, run_readToString_bind, hcrt]
  cases decodeText (d (inPki (name ++ ".crt".toList))) with
  | error e => rfl
  | ok crt =>
    simp only
    rw [run_readToString_bind, run_readToString_bind, hkey]
    cases decodeText (d (inPki (name ++ ".key".toList))) with
    | error e => rfl
    | ok key =>
      cases hkp : R.keyFromPem key with
      | error e =>
        simp only [hkp]
        rfl
      | ok kp =>
        simp only [hkp]
        cases R.certFromPem crt with
        | error e => rfl
        | ok cert => rfl

theorem loadIssuer_eqOn {d d' : Disk} (h : Set.EqOn d' d {f | f ∈ CA_FILES.map inPki}) :
    ((loadIssuer R "ca".toList).run d').1 = ((loadIssuer R "ca".toList).run d).1 ∧
      ((loadIssuer R "front-proxy-ca".toList).run d').1 =
        ((loadIssuer R "front-proxy-ca".toList).run d).1 := by
  constructor
  · exact loadIssuer_congr (h (by decide)) (h (by decide))
  · exact loadIssuer_congr (h (by decide)) (h (by decide))

/-- A CA is not empty after `ensure_ca`. -/
theorem apply_caWrites_nonEmpty (hR : R.Lawful) (name cn : Text) (g : Gen R) (d : Disk) :
    isNonEmpty (d.apply (caWrites R name cn g d) (inPki (name ++ ".crt".toList))) = true ∧
      isNonEmpty (d.apply (caWrites R name cn g d) (inPki (name ++ ".key".toList))) = true := by
  by_cases h : isNonEmpty (d (inPki (name ++ ".crt".toList))) = true ∧
      isNonEmpty (d (inPki (name ++ ".key".toList))) = true
  · rw [caWrites_eq_nil h.1 h.2, Files.apply_nil]
    exact h
  · obtain ⟨hkey, hcrt⟩ := @apply_caWrites R name cn g d h
    rw [hkey, hcrt]
    exact ⟨nonEmpty_text (hR.certPem_ne_nil _), nonEmpty_text (hR.keyPem_ne_nil _)⟩

theorem trustRoots_of_volatile {cfg : Cfg} {g : MintGen R} (h : cfg.requireShippedCa = false) :
    trustRoots R cfg g = mint R g := by
  unfold trustRoots
  rw [h]
  rfl

/-- A run that checks shipped trust roots writes nothing, and returns only if they are there. -/
theorem trustRoots_shipped_run {cfg : Cfg} {g : MintGen R} (hshipped : cfg.requireShippedCa = true)
    (d : Disk) : ((trustRoots R cfg g).run d).2 = d ∧ (((trustRoots R cfg g).run d).1 = .ok () →
      ∀ f ∈ CUSTODY_FILES, isNonEmpty (d (inPki f)) = true) := by
  by_cases hall : ∀ f ∈ CUSTODY_FILES, isNonEmpty (d (inPki f)) = true
  · rw [trustRoots_of_shipped hshipped hall]
    exact ⟨rfl, fun _ => hall⟩
  · push Not at hall
    obtain ⟨f, hf, hempty⟩ := hall
    obtain ⟨msg, hrun⟩ :=
      trustRoots_of_missing (g := g) hshipped ⟨f, hf, Bool.eq_false_iff.mpr hempty⟩
    rw [hrun]
    exact ⟨rfl, nofun⟩

/-- The CAs that a run has accepted or minted are not empty. -/
theorem trustRoots_nonEmpty (hR : R.Lawful) {cfg : Cfg} {g : MintGen R} {d : Disk}
    (h : ((trustRoots R cfg g).run d).1 = .ok ()) :
    ∀ f ∈ CA_FILES, isNonEmpty (((trustRoots R cfg g).run d).2 (inPki f)) = true := by
  cases hposture : cfg.requireShippedCa with
  | true =>
    obtain ⟨hrun, hall⟩ := trustRoots_shipped_run (g := g) hposture d
    rw [hrun]
    exact fun f hf => hall h f (List.mem_of_mem_take hf)
  | false =>
    obtain ⟨hcaCrt, hcaKey⟩ := apply_caWrites_nonEmpty hR "ca".toList "kubenyx-ca".toList g.ca d
    obtain ⟨hfpCrt, hfpKey⟩ := apply_caWrites_nonEmpty hR "front-proxy-ca".toList
      "kubenyx-front-proxy-ca".toList g.frontProxyCa d
    rw [trustRoots_of_volatile hposture, FileProg.run_files]
    simp only [CA_FILES, CUSTODY_FILES, List.take_succ_cons, List.take_zero, List.forall_mem_cons,
      List.not_mem_nil, false_implies, implies_true, and_true]
    rw [mint_ca_files g d (Or.inr rfl), mint_ca_files g d (Or.inl rfl),
      mint_frontProxy_files g d (Or.inr rfl), mint_frontProxy_files g d (Or.inl rfl)]
    exact ⟨hcaCrt, hcaKey, hfpCrt, hfpKey⟩

/-- CAs that are not empty are kept, and so is every file that is not in custody. -/
theorem trustRoots_keeps {cfg : Cfg} {g : MintGen R} {S : Set File} {d₀ : Disk}
    (hS : ∀ f ∈ S, f ∈ CA_FILES.map inPki ∨ NotCustody f)
    (hca : ∀ f ∈ CA_FILES, inPki f ∈ S ∧ isNonEmpty (d₀ (inPki f)) = true) :
    (trustRoots R cfg g).Keeps S d₀ := by
  intro d hd
  cases hposture : cfg.requireShippedCa with
  | true =>
    rw [(trustRoots_shipped_run hposture d).1]
    exact hd
  | false =>
    have hnonEmpty : ∀ f ∈ CA_FILES, isNonEmpty (d (inPki f)) = true := by
      intro f hf
      rw [hd (hca f hf).1]
      exact (hca f hf).2
    have hcluster : clusterWrites g d = [] :=
      caWrites_eq_nil (hnonEmpty _ (by decide)) (hnonEmpty _ (by decide))
    have hfrontProxy : frontProxyWrites g d = [] :=
      caWrites_eq_nil (hnonEmpty _ (by decide)) (hnonEmpty _ (by decide))
    have hsa : ∀ f ∈ CA_FILES.map inPki, f ≠ saKey ∧ f ≠ saPub := by decide
    rw [trustRoots_of_volatile hposture, FileProg.run_files, (mint_spec g d).1, hcluster, hfrontProxy,
      List.nil_append, List.nil_append]
    intro f hf
    refine (Files.apply_of_forall_ne d ?_).trans (hd hf)
    rcases hS f hf with hmem | hnot
    · exact saWrites_ne (hsa f hmem).1 (hsa f hmem).2
    · exact saWrites_ne (hnot.ne (by decide)) (hnot.ne (by decide))

/-- The issuers that a run loads from the directory. -/
structure HasIssuers (ca fpCa : Issuer R) (d : Disk) : Prop where
  ca : ((loadIssuer R "ca".toList).run d).1 = .ok ca
  frontProxy : ((loadIssuer R "front-proxy-ca".toList).run d).1 = .ok fpCa

theorem HasIssuers.congr {ca fpCa : Issuer R} {d d' : Disk} (h : HasIssuers ca fpCa d)
    (heq : Set.EqOn d' d {f | f ∈ CA_FILES.map inPki}) : HasIssuers ca fpCa d' where
  ca := (loadIssuer_eqOn heq).1.trans h.ca
  frontProxy := (loadIssuer_eqOn heq).2.trans h.frontProxy

theorem run_issueAll {cfg : Cfg} {x : ServerInput R} {ca fpCa : Issuer R} {d : Disk}
    (h : HasIssuers ca fpCa d) :
    (issueAll R cfg x).run d =
      (do issueLeaves R cfg x ca fpCa; distribute cfg : Prog Unit).run d := by
  rw [issueAll_eq, FileProg.run_bind_of_ok h.ca, loadIssuer_run, FileProg.run_bind_of_ok h.frontProxy,
    loadIssuer_run]

/-- A run that returns has loaded its issuers. -/
theorem hasIssuers_of_ok {cfg : Cfg} {x : ServerInput R} {d : Disk}
    (h : ((issueAll R cfg x).run d).1 = .ok ()) : ∃ ca fpCa, HasIssuers (R := R) ca fpCa d := by
  rw [issueAll_eq] at h
  obtain ⟨ca, hca⟩ := FileProg.ok_of_run_bind_ok h
  rw [FileProg.run_bind_of_ok hca, loadIssuer_run] at h
  obtain ⟨fpCa, hfpCa⟩ := FileProg.ok_of_run_bind_ok h
  exact ⟨ca, fpCa, hca, hfpCa⟩

/-- A completed run leaves issuers that are not empty, and every leaf issued by them. -/
theorem server_issued (hR : R.Lawful) {cfg : Cfg} (hnodes : (cfg.nodes.map Prod.fst).Nodup)
    {x : ServerInput R} {d : Disk} (h : ((server R cfg x).run d).1 = .ok ()) :
    (∀ f ∈ CA_FILES, isNonEmpty (((server R cfg x).run d).2 (inPki f)) = true) ∧
    ∃ ca fpCa, HasIssuers ca fpCa ((server R cfg x).run d).2 ∧
      ∀ p ∈ (serverLeaves cfg (nodeIp cfg x.detectedIp) ca fpCa).zipIdx,
        Issued R ⟨cfg.renewDays * DAY, cfg.leafDays⟩ p.1 (x.now p.2) (x.leaf p.2)
          ((server R cfg x).run d).2 := by
  obtain ⟨_, hroots⟩ := FileProg.ok_of_run_bind_ok (m := trustRoots R cfg x.mint)
    (f := fun _ => issueAll R cfg x) h
  have hserver : (server R cfg x).run d =
      (issueAll R cfg x).run ((trustRoots R cfg x.mint).run d).2 :=
    FileProg.run_bind_of_ok hroots
  have hnonEmpty := trustRoots_nonEmpty hR hroots
  rw [hserver] at h ⊢
  generalize ((trustRoots R cfg x.mint).run d).2 = d' at h hnonEmpty ⊢
  have hcustody : Set.EqOn ((issueAll R cfg x).run d').2 d' {f | f ∈ CA_FILES.map inPki} := by
    intro f hf
    exact (issueAll_allWrites cfg x).frame_run (fun _ hnot => hnot.notMem_caFiles hf) d'
  obtain ⟨ca, fpCa, hissuers⟩ := hasIssuers_of_ok h
  refine ⟨fun f hf => ?_, ca, fpCa, hissuers.congr hcustody, fun p hp => ?_⟩
  · rw [hcustody (List.mem_map_of_mem hf)]
    exact hnonEmpty f hf
  · rw [run_issueAll hissuers] at h ⊢
    obtain ⟨_, hleaves⟩ := FileProg.ok_of_run_bind_ok h
    rw [FileProg.run_bind_of_ok hleaves]
    refine (issueLeaves_issued hR hnodes hleaves p hp).congr fun f hf => ?_
    have hname := leafName_of_mem (List.fst_mem_of_mem_zipIdx hp)
    exact (distribute_allWrites cfg).frame_run (fun _ => not_distributed hname hf) _

/-! ## The next run -/

/-- The certificate of a leaf does not expire in the given time. -/
def OutsideWindow (R : Rcgen) (i : Issue) (name : Text) (now : Clock) (d : Disk) : Prop :=
  ∃ pem na, d (crtFile name) = some (.text pem) ∧ notAfterTs R pem = some na ∧
    now.secs + i.renewSecs < na

/-- A leaf that a run has issued or left alone is outside the window of a run that does not
    look further ahead. -/
theorem Issued.outsideWindow {i i' : Issue} {l : Leaf R} {now now' : Clock} {g : Gen R} {d : Disk}
    (h : Issued R i l now g d) (hnow : now'.secs + i'.renewSecs ≤ now.secs + i.renewSecs)
    (hdays : now'.secs + i'.renewSecs < g.after.secs + i.leafDays * DAY) :
    OutsideWindow R i' l.name now' d := by
  obtain ⟨pem, na, hpem, hna, hvalid⟩ := h.crt
  refine ⟨pem, na, hpem, hna, ?_⟩
  rcases hvalid with hlt | rfl
  · exact hnow.trans_lt hlt
  · exact hdays

/-- A run in which a leaf is up to date keeps its files, and with them the CAs. -/
theorem server_keeps {cfg : Cfg} (hnodes : (cfg.nodes.map Prod.fst).Nodup) {x : ServerInput R}
    {ca fpCa : Issuer R} {d : Disk} (hissuers : HasIssuers ca fpCa d)
    (hnonEmpty : ∀ f ∈ CA_FILES, isNonEmpty (d (inPki f)) = true) {l : Leaf R} {j : ℕ}
    (hl : (serverLeaves cfg (nodeIp cfg x.detectedIp) ca fpCa)[j]? = some l)
    (hcur : leafCurrent R ⟨cfg.renewDays * DAY, cfg.leafDays⟩ l (x.now j) d = true) :
    (server R cfg x).Keeps (leafFiles l.name ∪ {f | f ∈ CA_FILES.map inPki}) d := by
  have hsafe := leafFiles_notCustody (List.mem_of_getElem? hl)
  have hroots : (trustRoots R cfg x.mint).Keeps (leafFiles l.name ∪ {f | f ∈ CA_FILES.map inPki}) d :=
    trustRoots_keeps (fun f hf => hf.symm.imp_right (hsafe f))
      fun f hf => ⟨Or.inr (List.mem_map_of_mem hf), hnonEmpty f hf⟩
  refine hroots.bind fun _ _ _ _ d' hd' => ?_
  rw [run_issueAll (hissuers.congr fun f hf => hd' (Or.inr hf))]
  have hleaves : (issueLeaves R cfg x ca fpCa).Keeps
      (leafFiles l.name ∪ {f | f ∈ CA_FILES.map inPki}) d := by
    refine FileProg.Keeps.forM fun p hp => ?_
    by_cases hname : p.1.name = l.name
    · obtain rfl : p = (l, j) := eq_of_name (nodup_names hnodes _ ca fpCa) hp hl hname
      exact ensure_keeps_of_current Set.subset_union_left hcur
    · refine ensure_keeps _ _ _ _ (Set.disjoint_union_left.mpr ⟨?_, ?_⟩)
      · have hp := leafName_of_mem (List.fst_mem_of_mem_zipIdx hp)
        exact leafFiles_disjoint (leafName_of_mem (List.mem_of_getElem? hl)) hp (Ne.symm hname)
      · have hp := leafFiles_notCustody (List.fst_mem_of_mem_zipIdx hp)
        exact Set.disjoint_left.mpr fun f hca hf => (hp f hf).notMem_caFiles hca
  refine hleaves.bind (fun _ _ _ _ => ?_) d' hd'
  refine FileProg.Keeps.of_allWrites (distribute_allWrites cfg) fun f hf _ hdist => ?_
  rcases hf with hf | hf
  · exact not_distributed (leafName_of_mem (List.mem_of_getElem? hl)) hf hdist
  · exact hdist.notCustody.notMem_caFiles hf

/-- A completed run, and then a run with any configuration: it does not touch the files of the
    leaves that it issues with the parameters of the first run, as long as they do not
    expire. -/
theorem server_keeps_leaves (hR : R.Lawful) {cfg₁ cfg₂ : Cfg}
    (hnodes₁ : (cfg₁.nodes.map Prod.fst).Nodup) (hnodes₂ : (cfg₂.nodes.map Prod.fst).Nodup)
    (x₁ x₂ : ServerInput R) (d : Disk) (hrun : ((server R cfg₁ x₁).run d).1 = .ok ()) :
    ∃ ca fpCa : Issuer R, HasIssuers ca fpCa ((server R cfg₁ x₁).run d).2 ∧
      ∀ l ∈ serverLeaves cfg₁ (nodeIp cfg₁ x₁.detectedIp) ca fpCa,
      ∀ j, (serverLeaves cfg₂ (nodeIp cfg₂ x₂.detectedIp) ca fpCa)[j]? = some l →
        OutsideWindow R ⟨cfg₂.renewDays * DAY, cfg₂.leafDays⟩ l.name (x₂.now j)
          ((server R cfg₁ x₁).run d).2 →
        ∀ f ∈ leafFiles l.name, ((server R cfg₂ x₂).run ((server R cfg₁ x₁).run d).2).2 f =
          ((server R cfg₁ x₁).run d).2 f := by
  obtain ⟨hnonEmpty, ca, fpCa, hissuers, hissued⟩ := server_issued hR hnodes₁ hrun
  refine ⟨ca, fpCa, hissuers, fun l hl j hj hwindow f hf => ?_⟩
  obtain ⟨i, hi⟩ := List.getElem?_of_mem hl
  have hleaf := hissued (l, i) (List.mk_mem_zipIdx_iff_getElem?.mpr hi)
  have hcur := leafCurrent_iff.mpr ⟨hwindow, hleaf.key, hleaf.fp⟩
  exact server_keeps hnodes₂ hissuers hnonEmpty hj hcur _ (fun _ _ => rfl) (Or.inl hf)

/-! ## A first run -/

/-- All files are texts, and those of a set are there. -/
structure Readable (T : Set File) (d : Disk) : Prop where
  text : ∀ f c, d f = some c → ∃ t, c = .text t
  isSome : ∀ f ∈ T, (d f).isSome = true

namespace Readable

variable {T : Set File} {d : Disk}

theorem read (h : Readable T d) {f : File} (hf : f ∈ T) : ∃ t, d f = some (.text t) := by
  obtain ⟨c, hc⟩ := Option.isSome_iff_exists.mp (h.isSome f hf)
  obtain ⟨t, rfl⟩ := h.text f c hc
  exact ⟨t, hc⟩

theorem set (h : Readable T d) (f : File) (t : Text) : Readable T (d.set f (.text t)) where
  text g c hg := by
    by_cases hfg : g = f
    · rw [hfg, Files.set_self] at hg
      exact ⟨t, (Option.some.inj hg).symm⟩
    · rw [Files.set_of_ne _ _ hfg] at hg
      exact h.text g c hg
  isSome g hg := by
    by_cases hfg : g = f
    · rw [hfg, Files.set_self]
      rfl
    · rw [Files.set_of_ne _ _ hfg]
      exact h.isSome g hg

theorem run (h : Readable T d) {α : Type} {m : Prog α}
    (hm : m.AllWrites fun _ c => ∃ t, c = .text t) :
    Readable T (m.run d).2 := by
  have hwrites := hm.writes d
  rw [FileProg.run_files]
  generalize m.writes d = ws at hwrites
  induction ws generalizing d with
  | nil => exact h
  | cons w ws ih =>
    obtain ⟨⟨t, ht⟩, hws⟩ := List.forall_mem_cons.mp hwrites
    rw [Files.apply_cons, ht]
    exact ih (h.set w.1 t) hws

end Readable

theorem ensure_text (i : Issue) (l : Leaf R) (now : Clock) (g : Gen R) :
    (ensure R i l now g).AllWrites fun _ c => ∃ t, c = .text t := by
  unfold ensure
  refine (allWrites_readToString _).bind fun crt => (allWrites_pathExists _).bind fun keyExists =>
    (allWrites_readToString _).bind fun fp => ?_
  cases upToDate R i l now.secs crt keyExists fp with
  | true => trivial
  | false =>
    cases g.after.addDays i.leafDays with
    | none => trivial
    | some notAfter =>
      cases parseSans l.san with
      | error e => trivial
      | ok sans => exact ⟨⟨_, rfl⟩, ⟨_, rfl⟩, ⟨_, rfl⟩, trivial⟩

/-- `ensure` returns if the dates and the SANs are valid. -/
theorem ensure_ok {i : Issue} {l : Leaf R} {g : Gen R} {c : Cert R.Pub} (h : issued R i l g = .ok c)
    (now : Clock) (d : Disk) : ((ensure R i l now g).run d).1 = .ok () := by
  cases hcur : leafCurrent R i l now d with
  | true => exact (ensure_of_current hcur).2
  | false =>
    rw [(ensure_of_stale hcur).2, h]
    rfl

/-- The bundles and the kubeconfigs are made if the files of the leaves are there. -/
theorem distribute_ok {T : Set File} {d : Disk} {cfg : Cfg} (h : Readable T d)
    (hpackaged : ∀ f ∈ PACKAGED, inPki f ∈ T)
    (hkubeconfigs : ∀ k ∈ serverKubeconfigs cfg.nodeName, inPki k.crt ∈ T ∧ inPki k.key ∈ T) :
    ((distribute cfg).run d).1 = .ok () := by
  have hpackages : ∀ (node : Text) (d : Disk), Readable T d →
      ((packageNode node).run d).1 = .ok () ∧ Readable T ((packageNode node).run d).2 := by
    intro node d hd
    refine FileProg.forM_ok hd fun f hf d hd => ?_
    obtain ⟨t, ht⟩ := hd.read (hpackaged f hf)
    have hrun : (packageFile node f).run d = (.ok (), d.set (inPki (nodePath node f)) (.text t)) := by
      unfold packageFile
      rw [FileProg.run_readFile_bind, ht]
      rfl
    rw [hrun]
    exact ⟨rfl, hd.set _ t⟩
  obtain ⟨hok, hd⟩ := FileProg.forM_ok (l := cfg.nodes.filter fun node => node.1.1 ≠ cfg.nodeName)
    (g := fun node => packageNode node.1.1) h fun node _ d hd => hpackages node.1.1 d hd
  unfold distribute
  rw [FileProg.run_bind_of_ok hok, run_readToString_bind]
  obtain ⟨caPem, hca⟩ := hd.read (hpackaged "ca.crt".toList (by decide))
  rw [hca, decodeText_text]
  refine (FileProg.forM_ok hd fun k hk d hd => ?_).1
  obtain ⟨crt, hcrt⟩ := hd.read (hkubeconfigs k hk).1
  obtain ⟨key, hkey⟩ := hd.read (hkubeconfigs k hk).2
  refine ⟨(writeKubeconfig_spec hcrt hkey).2, hd.run ((writeKubeconfig_allWrites _ _ _ k).mono ?_)⟩
  rintro f c ⟨-, crt, key, rfl⟩
  exact ⟨_, rfl⟩

theorem mint_text (g : MintGen R) : (mint R g).AllWrites fun _ c => ∃ t, c = .text t := by
  have hca : ∀ (name cn : Text) (g : Gen R),
      (ensureCa R name cn g).AllWrites fun _ c => ∃ t, c = .text t := by
    intro name cn g
    refine (allWrites_nonEmpty _).bind fun crt => (allWrites_nonEmpty _).bind fun key => ?_
    cases crt && key with
    | true => trivial
    | false => exact ⟨⟨_, rfl⟩, ⟨_, rfl⟩, trivial⟩
  refine (hca _ _ _).bind fun _ => (hca _ _ _).bind fun _ =>
    (allWrites_pathExists _).bind fun key => ?_
  cases key with
  | true => trivial
  | false => exact ⟨⟨_, rfl⟩, ⟨_, rfl⟩, trivial⟩

/-- An issuer is loaded from what was serialized. -/
theorem loadIssuer_ok (hR : R.Lawful) (name : Text) {d : Disk} {k : R.Key} {c : Cert R.Pub}
    (hkey : d (inPki (name ++ ".key".toList)) = some (.text (R.keyPem k)))
    (hcrt : d (inPki (name ++ ".crt".toList)) = some (.text (R.certPem c))) :
    ∃ ca, ((loadIssuer R name).run d).1 = .ok ca := by
  unfold loadIssuer
  rw [run_readToString_bind, hcrt, decodeText_text]
  simp only
  rw [run_readToString_bind, hkey, decodeText_text]
  simp only [hR.keyFromPem_keyPem, hR.certFromPem_certPem]
  exact ⟨_, rfl⟩

/-- What the minting leaves in an empty directory. -/
theorem mint_empty (hR : R.Lawful) (g : MintGen R) :
    Readable {inPki "ca.crt".toList} ((mint R g).run fun _ => none).2 ∧
      ∃ ca fpCa, HasIssuers (R := R) ca fpCa ((mint R g).run fun _ => none).2 := by
  have hca := @apply_caWrites R "ca".toList "kubenyx-ca".toList g.ca (fun _ => none) (by decide)
  have hfp := @apply_caWrites R "front-proxy-ca".toList "kubenyx-front-proxy-ca".toList g.frontProxyCa
    (fun _ => none) (by decide)
  have hread : Readable ∅ ((mint R g).run fun _ => none).2 :=
    Readable.run ⟨fun _ _ h => (Option.some_ne_none _ h.symm).elim,
      fun f hf => (Set.notMem_empty f hf).elim⟩
      (mint_text g)
  rw [FileProg.run_files] at hread ⊢
  have hcaKey := (mint_ca_files g (fun _ => none) (Or.inl rfl)).trans hca.1
  have hcaCrt := (mint_ca_files g (fun _ => none) (Or.inr rfl)).trans hca.2
  have hfpKey := (mint_frontProxy_files g (fun _ => none) (Or.inl rfl)).trans hfp.1
  have hfpCrt := (mint_frontProxy_files g (fun _ => none) (Or.inr rfl)).trans hfp.2
  refine ⟨⟨hread.text, ?_⟩, ?_⟩
  · rintro f rfl
    rw [hcaCrt]
    rfl
  · obtain ⟨ca, hloadCa⟩ := loadIssuer_ok hR "ca".toList hcaKey hcaCrt
    obtain ⟨fpCa, hloadFp⟩ := loadIssuer_ok hR "front-proxy-ca".toList hfpKey hfpCrt
    exact ⟨ca, fpCa, hloadCa, hloadFp⟩

theorem exists_leaf (cfg : Cfg) (ip : Text) (ca fpCa : Issuer R) (name : Text)
    (h : name ∈ CLUSTER_LEAVES.take 10 ∨
      ∃ node ∈ cfg.nodes.map Prod.fst, name ∈ nodeLeafNames node) :
    ∃ l ∈ serverLeaves cfg ip ca fpCa, l.name = name := by
  rw [← List.mem_map, map_name_serverLeaves, List.mem_append]
  rcases h with h | h
  · refine Or.inl (List.take_subset_take_left CLUSTER_LEAVES ?_ h)
    split_ifs <;> omega
  · exact Or.inr (List.mem_flatMap.mpr h)

/-- The kubeconfigs are of leaves of the server. -/
theorem exists_leaf_of_kubeconfig {cfg : Cfg}
    (hself : cfg.nodeName ∈ cfg.nodes.map fun node => node.1.1)
    (ip : Text) (ca fpCa : Issuer R) :
    ∀ k ∈ serverKubeconfigs cfg.nodeName, ∃ l ∈ serverLeaves cfg ip ca fpCa,
      inPki k.crt = crtFile l.name ∧ inPki k.key = keyFile l.name := by
  have hbase : ∀ {base : Text} (out user : Text), (∃ l ∈ serverLeaves cfg ip ca fpCa, l.name = base) →
      ∃ l ∈ serverLeaves cfg ip ca fpCa, inPki (leafKubeconfig out user base).crt = crtFile l.name ∧
        inPki (leafKubeconfig out user base).key = keyFile l.name := by
    rintro _ out user ⟨l, hl, rfl⟩
    exact ⟨l, hl, rfl, rfl⟩
  have hcluster : ∀ name ∈ CLUSTER_LEAVES.take 10, ∃ l ∈ serverLeaves cfg ip ca fpCa, l.name = name :=
    fun name hname => exists_leaf cfg ip ca fpCa name (Or.inl hname)
  obtain ⟨node, hnode, heq⟩ := List.mem_map.mp hself
  have hkubelet := exists_leaf cfg ip ca fpCa (nodePath cfg.nodeName "kubelet".toList)
    (Or.inr ⟨node.1, List.mem_map_of_mem hnode, heq ▸ List.mem_map_of_mem (by decide)⟩)
  simp only [serverKubeconfigs, List.forall_mem_cons, List.not_mem_nil, false_implies,
    implies_true, and_true]
  exact ⟨hbase _ _ (hcluster _ (by decide)), hbase _ _ (hcluster _ (by decide)),
    hbase _ _ (hcluster _ (by decide)), hbase _ _ (hcluster _ (by decide)),
    hbase _ _ (hcluster _ (by decide)), hbase _ _ (hcluster _ (by decide)), hbase _ _ hkubelet⟩

/-- What is packaged is the CA and files of leaves. -/
theorem exists_leaf_of_packaged (cfg : Cfg) (ip : Text) (ca fpCa : Issuer R) :
    ∀ f ∈ PACKAGED, f = "ca.crt".toList ∨ ∃ l ∈ serverLeaves cfg ip ca fpCa,
      inPki f = crtFile l.name ∨ inPki f = keyFile l.name := by
  obtain ⟨proxy, hproxy, hproxyName⟩ := exists_leaf cfg ip ca fpCa "kube-proxy".toList
    (Or.inl (by decide))
  obtain ⟨dns, hdns, hdnsName⟩ := exists_leaf cfg ip ca fpCa "coredns".toList
    (Or.inl (by decide))
  have hproxyFiles : inPki "kube-proxy.crt".toList = crtFile proxy.name ∧
      inPki "kube-proxy.key".toList = keyFile proxy.name := by
    rw [hproxyName]
    exact ⟨rfl, rfl⟩
  have hdnsFiles : inPki "coredns.crt".toList = crtFile dns.name ∧
      inPki "coredns.key".toList = keyFile dns.name := by
    rw [hdnsName]
    exact ⟨rfl, rfl⟩
  simp only [PACKAGED, List.forall_mem_cons, List.not_mem_nil, false_implies, implies_true, and_true]
  exact ⟨Or.inl trivial, Or.inr ⟨proxy, hproxy, Or.inl hproxyFiles.1⟩,
    Or.inr ⟨proxy, hproxy, Or.inr hproxyFiles.2⟩, Or.inr ⟨dns, hdns, Or.inl hdnsFiles.1⟩,
    Or.inr ⟨dns, hdns, Or.inr hdnsFiles.2⟩⟩

/-- The first run of a server in the volatile posture completes if the dates and the SANs of
    its leaves are valid and it is one of the declared nodes. -/
theorem server_completes (hR : R.Lawful) {cfg : Cfg} (hvolatile : cfg.requireShippedCa = false)
    (hnodes : (cfg.nodes.map Prod.fst).Nodup)
    (hself : cfg.nodeName ∈ cfg.nodes.map fun node => node.1.1)
    (x : ServerInput R)
    (hissued : ∀ ca fpCa, ∀ p ∈ (serverLeaves cfg (nodeIp cfg x.detectedIp) ca fpCa).zipIdx,
      ∃ c, issued R ⟨cfg.renewDays * DAY, cfg.leafDays⟩ p.1 (x.leaf p.2) = .ok c) :
    ((server R cfg x).run fun _ => none).1 = .ok () := by
  obtain ⟨hread, ca, fpCa, hissuers⟩ := mint_empty hR x.mint
  have hserver : (server R cfg x).run (fun _ => none) =
      (issueAll R cfg x).run ((mint R x.mint).run fun _ => none).2 := by
    unfold server
    rw [trustRoots_of_volatile hvolatile, FileProg.run_bind_of_ok (mint_spec x.mint _).2]
  rw [hserver, run_issueAll hissuers]
  generalize ((mint R x.mint).run fun _ => none).2 = d at hread hissuers
  have hok : ((issueLeaves R cfg x ca fpCa).run d).1 = .ok () ∧
      Readable {inPki "ca.crt".toList} ((issueLeaves R cfg x ca fpCa).run d).2 := by
    refine FileProg.forM_ok hread fun p hp d hd => ?_
    obtain ⟨c, hc⟩ := hissued ca fpCa p hp
    exact ⟨ensure_ok hc _ d, hd.run (ensure_text _ _ _ _)⟩
  have hleaves := issueLeaves_issued hR hnodes hok.1
  rw [FileProg.run_bind_of_ok hok.1]
  have hread' : Readable {f | f = inPki "ca.crt".toList ∨
      ∃ l ∈ serverLeaves cfg (nodeIp cfg x.detectedIp) ca fpCa, f = crtFile l.name ∨ f = keyFile l.name}
      ((issueLeaves R cfg x ca fpCa).run d).2 := by
    refine ⟨hok.2.text, ?_⟩
    rintro f (rfl | ⟨l, hl, hf⟩)
    · exact hok.2.isSome _ rfl
    · obtain ⟨i, hi⟩ := List.getElem?_of_mem hl
      have hleaf := hleaves (l, i) (List.mk_mem_zipIdx_iff_getElem?.mpr hi)
      rcases hf with rfl | rfl
      · obtain ⟨pem, -, hpem, -⟩ := hleaf.crt
        rw [hpem]
        rfl
      · exact hleaf.key
  refine distribute_ok hread' (fun f hf => ?_) fun k hk => ?_
  · exact (exists_leaf_of_packaged cfg _ ca fpCa f hf).imp_left (congrArg inPki)
  · obtain ⟨l, hl, hcrt, hkey⟩ := exists_leaf_of_kubeconfig hself _ ca fpCa k hk
    exact ⟨Or.inr ⟨l, hl, Or.inl hcrt⟩, Or.inr ⟨l, hl, Or.inr hkey⟩⟩

theorem nodeName_node :
    '/' ∉ "node".toList ∧ "node".toList ≠ ".".toList ∧ "node".toList ≠ "..".toList := by
  decide

theorem nodeName_other :
    '/' ∉ "other".toList ∧ "other".toList ≠ ".".toList ∧ "other".toList ≠ "..".toList := by
  decide

/-- A server that is its only node. -/
def Cfg.alone : Cfg := { Cfg.sample with nodes := [(⟨"node".toList, nodeName_node⟩, none)] }

/-- The same server with another node. -/
def Cfg.grown : Cfg :=
  { Cfg.sample with
    nodes := [(⟨"node".toList, nodeName_node⟩, none), (⟨"other".toList, nodeName_other⟩, none)] }

theorem nodup_alone : (Cfg.alone.nodes.map Prod.fst).Nodup := List.nodup_singleton _

theorem nodup_grown : (Cfg.grown.nodes.map Prod.fst).Nodup := by decide

theorem alone_completes :
    ((server Rcgen.unary Cfg.alone (ServerInput.sample 0)).run fun _ => none).1 = .ok () := by
  refine server_completes Rcgen.unary_lawful rfl nodup_alone (by decide) _ ?_
  intro ca fpCa p hp
  have hok : ∀ san ∈ [apiSan Cfg.alone "10.0.0.1".toList, [],
      ["DNS:node".toList, "IP:127.0.0.1".toList, "IP:10.0.0.1".toList]],
      (parseSans san).isOk = true := by decide
  have hmem : ∀ san ∈ (serverLeaves Cfg.alone "10.0.0.1".toList ca fpCa).map Leaf.san,
      san ∈ [apiSan Cfg.alone "10.0.0.1".toList, [],
        ["DNS:node".toList, "IP:127.0.0.1".toList, "IP:10.0.0.1".toList]] := by
    have hsans : (serverLeaves Cfg.alone "10.0.0.1".toList ca fpCa).map Leaf.san =
        [apiSan Cfg.alone "10.0.0.1".toList, [], [], [], [], [], [], [], [], [], [],
          ["DNS:node".toList, "IP:127.0.0.1".toList, "IP:10.0.0.1".toList]] := rfl
    rw [hsans]
    decide
  have hsan := hok p.1.san (hmem p.1.san (List.mem_map_of_mem (List.fst_mem_of_mem_zipIdx hp)))
  cases hparse : parseSans p.1.san with
  | error e =>
    rw [hparse] at hsan
    cases hsan
  | ok sans =>
    unfold issued
    rw [hparse]
    exact ⟨_, rfl⟩

/-- A node is added: the leaves of the first run stay as they are. -/
theorem server_keeps_leaves_grown :
    let d₁ := ((server Rcgen.unary Cfg.alone (ServerInput.sample 0)).run fun _ => none).2
    let d₂ := ((server Rcgen.unary Cfg.grown (ServerInput.sample 100)).run d₁).2
    ∃ ca fpCa, HasIssuers (R := Rcgen.unary) ca fpCa d₁ ∧
      ∀ l ∈ serverLeaves Cfg.alone "10.0.0.1".toList ca fpCa, ∀ f ∈ leafFiles l.name, d₂ f = d₁ f := by
  intro d₁ d₂
  obtain ⟨ca, fpCa, hissuers, hkeep⟩ := server_keeps_leaves Rcgen.unary_lawful nodup_alone nodup_grown
    (ServerInput.sample 0) (ServerInput.sample 100) (fun _ => none) alone_completes
  refine ⟨ca, fpCa, hissuers, fun l hl f hf => ?_⟩
  obtain ⟨j, hj⟩ := List.getElem?_of_mem hl
  have hgrown : ∃ more, serverLeaves Cfg.grown "10.0.0.1".toList ca fpCa =
      serverLeaves Cfg.alone "10.0.0.1".toList ca fpCa ++ more := ⟨_, rfl⟩
  obtain ⟨more, hmore⟩ := hgrown
  have hj' : (serverLeaves Cfg.grown "10.0.0.1".toList ca fpCa)[j]? = some l := by
    rw [hmore, List.getElem?_append_left (List.getElem?_eq_some_iff.mp hj).1, hj]
  obtain ⟨-, ca', fpCa', hissuers', hissued⟩ :=
    server_issued Rcgen.unary_lawful nodup_alone alone_completes
  obtain rfl : ca = ca' := Except.ok.inj (hissuers.ca.symm.trans hissuers'.ca)
  obtain rfl : fpCa = fpCa' := Except.ok.inj (hissuers.frontProxy.symm.trans hissuers'.frontProxy)
  have hleaf := hissued (l, j) (List.mk_mem_zipIdx_iff_getElem?.mpr hj)
  have hrenew : Clock.zero.secs + 30 * DAY < Clock.zero.secs + 365 * DAY := by decide
  exact hkeep l hl j hj' (hleaf.outsideWindow le_rfl hrenew) f hf

end Kubenyx.Pki
