import Kubenyx.Pki.Kubeconfig

/-!
# Agent mode

Model of `agent` (lib.rs:739-814). An agent renders three kubeconfigs from credentials
that the operator ships. A path unit (modules/pki.nix:163-171) starts it whenever the
directory changes, so that runs see the directory while files are still arriving.

The machine `Node` interleaves the replacement of single files of the PKI directory
with the single steps of runs, at most one at a time.

* `agent_spec`: what a run does that is not disturbed.
* `agent_of_textBundle`: on a bundle of texts it completes, and each kubeconfig is as if it
  were written alone.
-/

namespace Kubenyx.Pki

open Kubenyx.Common

/-! ## The program -/

/-- `needed` (lib.rs:741-751). -/
def needed : List Text :=
  ["ca.crt".toList, "kubelet.crt".toList, "kubelet.key".toList, "kubelet-server.crt".toList,
    "kubelet-server.key".toList, "kube-proxy.crt".toList, "kube-proxy.key".toList,
    "coredns.crt".toList, "coredns.key".toList]

/-- The kubeconfigs of an agent (lib.rs:787-813). -/
def agentKubeconfigs (nodeName : Text) : List Kubeconfig :=
  [{ out := "kubelet.kubeconfig".toList
     user := "system:node:".toList ++ nodeName
     crt := "kubelet.crt".toList
     key := "kubelet.key".toList },
   { out := "kube-proxy.kubeconfig".toList
     user := "system:kube-proxy".toList
     crt := "kube-proxy.crt".toList
     key := "kube-proxy.key".toList },
   { out := "coredns.kubeconfig".toList
     user := "system:coredns".toList
     crt := "coredns.crt".toList
     key := "coredns.key".toList }]

/-- `agent` (lib.rs:739-814). The warning about the expiry of `kubelet.crt` is only the
    read that it makes. -/
def agent (cfg : Cfg) : Prog Unit := do
  let missing ← missingFiles needed
  if missing ≠ [] then return
  let _ ← readToString (inPki "kubelet.crt".toList)
  match ← readToString (inPki "ca.crt".toList) with
  | .error e => panic ("ca.crt: ".toList ++ e.debug)
  | .ok caPem =>
    (agentKubeconfigs cfg.nodeName).forM (writeKubeconfig cfg.pki cfg.apiUrl caPem)

/-! ## Runs beside arriving files -/

/-- The disk of an agent, and the run that is under way. -/
structure Node where
  disk : Disk
  running : Option (Prog Unit)

/-- What can happen on an agent. -/
inductive NodeAction where
  /-- A shipped file replaces the one there is. -/
  | land (path : Text) (c : Content)
  /-- The path unit starts a run. -/
  | start (cfg : Cfg)
  /-- The run takes a step, or exits. -/
  | step

/-- One step of the node named `name`. -/
def Node.step (name : Text) (s : Node) : NodeAction → Option Node
  | .land path c => some { s with disk := s.disk.set (inPki path) c }
  | .start cfg =>
    if s.running.isNone ∧ cfg.nodeName = name then some { s with running := some (agent cfg) }
    else none
  | .step =>
    match s.running with
    | none => none
    | some m =>
      match m.step s.disk with
      | some (m', d') => some ⟨d', some m'⟩
      | none => some { s with running := none }

variable {name : Text}

/-! ## An undisturbed run -/

/-- The kubeconfigs of a node are different files. -/
theorem agentKubeconfigs_nodup (name : Text) :
    ((agentKubeconfigs name).map (·.out)).Nodup := by
  show ["kubelet.kubeconfig".toList, "kube-proxy.kubeconfig".toList,
    "coredns.kubeconfig".toList].Nodup
  decide

/-- The certificate and the key of a kubeconfig are texts. -/
def Kubeconfig.Readable (k : Kubeconfig) (d : Disk) : Prop :=
  (∃ crt, d (inPki k.crt) = some (.text crt)) ∧ ∃ key, d (inPki k.key) = some (.text key)

/-- Writing kubeconfigs leaves the PKI directory. -/
theorem writeKubeconfig_frame (pki apiUrl ca : Text) (k : Kubeconfig) (d : Disk) {f : File}
    (hf : f ≠ inKubeconfigs k.out) : ((writeKubeconfig pki apiUrl ca k).run d).2 f = d f :=
  (writeKubeconfig_allWrites pki apiUrl ca k).frame_run (fun _ h => hf h.1) d

/-- A kubeconfig depends on its own three files. -/
theorem writeKubeconfig_congr {pki apiUrl ca : Text} {k : Kubeconfig} {d d' : Disk}
    (hcrt : d (inPki k.crt) = d' (inPki k.crt)) (hkey : d (inPki k.key) = d' (inPki k.key))
    (hout : d (inKubeconfigs k.out) = d' (inKubeconfigs k.out)) (hread : k.Readable d) :
    ((writeKubeconfig pki apiUrl ca k).run d).2 (inKubeconfigs k.out) =
      ((writeKubeconfig pki apiUrl ca k).run d').2 (inKubeconfigs k.out) := by
  obtain ⟨⟨crt, hc⟩, key, hk⟩ := hread
  rw [FileProg.run_files, FileProg.run_files, (writeKubeconfig_spec hc hk).1,
    (writeKubeconfig_spec (hcrt ▸ hc) (hkey ▸ hk)).1]
  unfold kubeconfigWrites
  rw [hout]
  exact Files.apply_congr hout _

/-- Kubeconfigs one after another: where the run returns, all certificates and keys are
    texts, each kubeconfig is as if it were written alone, and nothing else changes. -/
theorem writeKubeconfigs_spec {pki apiUrl ca : Text} {ks : List Kubeconfig} {d : Disk}
    (hnodup : (ks.map (·.out)).Nodup)
    (hok : ((ks.forM (writeKubeconfig pki apiUrl ca)).run d).1 = .ok ()) :
    (∀ k ∈ ks, k.Readable d ∧ ((ks.forM (writeKubeconfig pki apiUrl ca)).run d).2
      (inKubeconfigs k.out) = ((writeKubeconfig pki apiUrl ca k).run d).2 (inKubeconfigs k.out)) ∧
      ∀ f, (∀ k ∈ ks, f ≠ inKubeconfigs k.out) →
        ((ks.forM (writeKubeconfig pki apiUrl ca)).run d).2 f = d f := by
  induction ks generalizing d with
  | nil => exact ⟨nofun, fun f _ => rfl⟩
  | cons l ks ih =>
    rw [List.map_cons, List.nodup_cons] at hnodup
    have hne : ∀ k ∈ ks, inKubeconfigs k.out ≠ inKubeconfigs l.out := by
      intro k hk heq
      exact hnodup.1 ((File.mk.inj heq).2 ▸ List.mem_map_of_mem hk)
    have hframe := fun f => @writeKubeconfig_frame pki apiUrl ca l d f
    have hcons : (l :: ks).forM (writeKubeconfig pki apiUrl ca) =
        (writeKubeconfig pki apiUrl ca l >>= fun _ => ks.forM (writeKubeconfig pki apiUrl ca)) := rfl
    rw [hcons] at hok ⊢
    obtain ⟨⟨⟩, hl⟩ := FileProg.ok_of_run_bind_ok hok
    rw [FileProg.run_bind_of_ok hl] at hok ⊢
    obtain ⟨hks, hothers⟩ := ih hnodup.2 hok
    refine ⟨List.forall_mem_cons.mpr ⟨⟨texts_of_writeKubeconfig_ok hl, ?_⟩, fun k hk => ?_⟩,
      fun f hf => ?_⟩
    · exact hothers _ fun k hk => (hne k hk).symm
    · obtain ⟨hread, hfile⟩ := hks k hk
      have hpki : ∀ path, ((writeKubeconfig pki apiUrl ca l).run d).2 (inPki path) = d (inPki path) :=
        fun path => hframe _ (inKubeconfigs_ne_inPki _ _).symm
      refine ⟨by rwa [Kubeconfig.Readable, hpki, hpki] at hread, hfile.trans ?_⟩
      exact writeKubeconfig_congr (hpki _) (hpki _) (hframe _ (hne k hk)) hread
    · exact (hothers f fun k hk => hf k (List.mem_cons_of_mem _ hk)).trans
        (hframe f (hf l List.mem_cons_self))

/-- Where all certificates and keys are texts, the run returns. -/
theorem writeKubeconfigs_ok {pki apiUrl ca : Text} {ks : List Kubeconfig} {d : Disk}
    (h : ∀ k ∈ ks, k.Readable d) : ((ks.forM (writeKubeconfig pki apiUrl ca)).run d).1 = .ok () := by
  induction ks generalizing d with
  | nil => rfl
  | cons l ks ih =>
    have hcons : (l :: ks).forM (writeKubeconfig pki apiUrl ca) =
        (writeKubeconfig pki apiUrl ca l >>= fun _ => ks.forM (writeKubeconfig pki apiUrl ca)) := rfl
    obtain ⟨⟨crt, hcrt⟩, key, hkey⟩ := h l List.mem_cons_self
    rw [hcons, FileProg.run_bind_of_ok (writeKubeconfig_spec hcrt hkey).2]
    refine ih fun k hk => ?_
    have hread := h k (List.mem_cons_of_mem _ hk)
    rwa [Kubeconfig.Readable, writeKubeconfig_frame _ _ _ _ _ (inKubeconfigs_ne_inPki _ _).symm,
      writeKubeconfig_frame _ _ _ _ _ (inKubeconfigs_ne_inPki _ _).symm]

/-- A run on a complete bundle. -/
theorem agent_spec {cfg : Cfg} {d : Disk} (hbundle : ∀ f ∈ needed, isNonEmpty (d (inPki f)) = true) :
    (agent cfg).run d =
      match decodeText (d (inPki "ca.crt".toList)) with
      | .error e => (.error (.panic ("ca.crt: ".toList ++ e.debug)), d)
      | .ok ca => ((agentKubeconfigs cfg.nodeName).forM (writeKubeconfig cfg.pki cfg.apiUrl ca)).run d := by
  unfold agent
  rw [FileProg.run_bind, run_missingFiles, filter_missing_eq_nil hbundle]
  simp only [ne_eq, not_true_eq_false, if_false]
  rw [run_readToString_bind, run_readToString_bind]
  cases decodeText (d (inPki "ca.crt".toList)) with
  | error e => rfl
  | ok ca => rfl

namespace Node

/-- Steps of the run under way, up to its exit. -/
theorem exec_steps {m : Prog Unit} {d : Disk} {n : ℕ} {s' : Node}
    (h : exec (step name) ⟨d, some m⟩ (List.replicate n .step) = some s')
    (hend : s'.running = none) : s'.disk = (m.run d).2 := by
  induction n generalizing m d with
  | zero =>
    cases h
    cases hend
  | succ n ih =>
    -- After the exit no step is enabled, so that the last one is the exit.
    have hexit : ∀ {d : Disk},
        exec (step name) ⟨d, none⟩ (List.replicate n .step) = some s' → s'.disk = d := by
      intro d h
      cases n with
      | zero =>
        cases h
        rfl
      | succ n => cases h
    cases m with
    | pure a => exact hexit h
    | fail e => exact hexit h
    | read p k => exact ih (m := k (d p)) h
    | write p c next => exact ih (m := next) h

/-- A run from its start to its exit. -/
def wholeRun (cfg : Cfg) (d : Disk) : List NodeAction :=
  .start cfg :: List.replicate ((agent cfg).steps d) .step

/-- A run that is not disturbed exits. -/
theorem exec_wholeRun (cfg : Cfg) (d : Disk) :
    exec (step cfg.nodeName) ⟨d, none⟩ (wholeRun cfg d) = some ⟨((agent cfg).run d).2, none⟩ := by
  have hsteps : ∀ (m : Prog Unit) (d : Disk),
      exec (step cfg.nodeName) ⟨d, some m⟩ (List.replicate (m.steps d) .step) =
        some ⟨(m.run d).2, none⟩ := by
    intro m
    induction m with
    | pure a => exact fun d => rfl
    | fail e => exact fun d => rfl
    | read p k ih => exact fun d => ih (d p) d
    | write p c next ih => exact fun d => ih (d.set p c)
  refine exec_cons_iff.mpr ⟨⟨d, some (agent cfg)⟩, ?_, hsteps _ d⟩
  exact if_pos ⟨rfl, rfl⟩

/-- A file that lands after a whole run. -/
theorem exec_wholeRun_land (cfg : Cfg) (d : Disk) (path : Text) (c : Content) (as : List NodeAction) :
    exec (step cfg.nodeName) ⟨d, none⟩ (wholeRun cfg d ++ .land path c :: as) =
      exec (step cfg.nodeName) ⟨((agent cfg).run d).2.set (inPki path) c, none⟩ as := by
  rw [exec_append, exec_wholeRun]
  generalize ((agent cfg).run d).2 = d'
  rfl

end Node

/-! ## Bundles of texts -/

namespace Kubeconfig

/-- The CA, the certificate and the key for a kubeconfig that are on the disk. -/
structure OnDisk (k : Kubeconfig) (d : Disk) (ca crt key : Text) : Prop where
  ca_eq : d (inPki "ca.crt".toList) = some (.text ca)
  crt_eq : d (inPki k.crt) = some (.text crt)
  key_eq : d (inPki k.key) = some (.text key)

theorem OnDisk.unique {k : Kubeconfig} {d : Disk} {ca crt key ca' crt' key' : Text}
    (h : k.OnDisk d ca crt key) (h' : k.OnDisk d ca' crt' key') :
    ca = ca' ∧ crt = crt' ∧ key = key' := by
  have htext : ∀ {f : File} {t t' : Text}, d f = some (.text t) → d f = some (.text t') → t = t' :=
    fun ht ht' => Content.text.inj (Option.some.inj (ht.symm.trans ht'))
  exact ⟨htext h.ca_eq h'.ca_eq, htext h.crt_eq h'.crt_eq, htext h.key_eq h'.key_eq⟩

theorem OnDisk.of_eq {k : Kubeconfig} {d d' : Disk} {ca crt key : Text} (h : k.OnDisk d ca crt key)
    (heq : ∀ path, d' (inPki path) = d (inPki path)) : k.OnDisk d' ca crt key :=
  ⟨(heq _).trans h.ca_eq, (heq _).trans h.crt_eq, (heq _).trans h.key_eq⟩

end Kubeconfig

theorem mem_agentKubeconfigs {k : Kubeconfig} : k ∈ agentKubeconfigs name ↔
    k = ⟨"kubelet.kubeconfig".toList, "system:node:".toList ++ name, "kubelet.crt".toList,
      "kubelet.key".toList⟩ ∨
    k = ⟨"kube-proxy.kubeconfig".toList, "system:kube-proxy".toList, "kube-proxy.crt".toList,
      "kube-proxy.key".toList⟩ ∨
    k = ⟨"coredns.kubeconfig".toList, "system:coredns".toList, "coredns.crt".toList,
      "coredns.key".toList⟩ := by
  simp only [agentKubeconfigs, List.mem_cons, List.not_mem_nil, or_false]

/-- All files of the bundle are there, and are texts. -/
def TextBundle (d : Disk) : Prop := ∀ f ∈ needed, ∃ t, t ≠ [] ∧ d (inPki f) = some (.text t)

namespace TextBundle

theorem nonEmpty {d : Disk} (h : TextBundle d) :
    ∀ f ∈ needed, isNonEmpty (d (inPki f)) = true := by
  intro f hf
  obtain ⟨t, ht, heq⟩ := h f hf
  rw [heq]
  exact nonEmpty_text ht

theorem set {d : Disk} (h : TextBundle d) {path t : Text} (ht : t ≠ []) :
    TextBundle (d.set (inPki path) (.text t)) := by
  intro f hf
  by_cases heq : inPki f = inPki path
  · rw [heq]
    exact ⟨t, ht, Files.set_self ..⟩
  · rw [Files.set_of_ne _ _ heq]
    exact h f hf

theorem of_eq {d d' : Disk} (h : TextBundle d) (heq : ∀ path, d' (inPki path) = d (inPki path)) :
    TextBundle d' := by
  intro f hf
  rw [heq]
  exact h f hf

/-- The files of a kubeconfig are in the bundle. -/
theorem onDisk {d : Disk} (h : TextBundle d) {k : Kubeconfig} (hk : k ∈ agentKubeconfigs name) :
    ∃ ca crt key, k.OnDisk d ca crt key := by
  have hmem : "ca.crt".toList ∈ needed ∧ k.crt ∈ needed ∧ k.key ∈ needed := by
    rcases mem_agentKubeconfigs.mp hk with rfl | rfl | rfl <;> dsimp only <;> decide
  obtain ⟨ca, -, hca⟩ := h _ hmem.1
  obtain ⟨crt, -, hcrt⟩ := h _ hmem.2.1
  obtain ⟨key, -, hkey⟩ := h _ hmem.2.2
  exact ⟨ca, crt, key, hca, hcrt, hkey⟩

end TextBundle

/-- A run on a bundle of texts completes, and gives each kubeconfig what it would be if
    it were written alone. -/
theorem agent_of_textBundle {d : Disk} (h : TextBundle d) (cfg : Cfg) :
    ((agent cfg).run d).1 = .ok () ∧
      (∀ path, ((agent cfg).run d).2 (inPki path) = d (inPki path)) ∧
      ∀ k ∈ agentKubeconfigs cfg.nodeName, ∀ ca crt key, k.OnDisk d ca crt key →
        ((agent cfg).run d).2 (inKubeconfigs k.out) =
          d.apply (kubeconfigWrites cfg.apiUrl ca crt key k d) (inKubeconfigs k.out) := by
  have hread : ∀ k ∈ agentKubeconfigs cfg.nodeName, k.Readable d := by
    intro k hk
    obtain ⟨_, crt, key, hon⟩ := h.onDisk hk
    exact ⟨⟨crt, hon.crt_eq⟩, key, hon.key_eq⟩
  obtain ⟨ca, -, hca⟩ := h "ca.crt".toList (by decide)
  rw [agent_spec h.nonEmpty, hca, decodeText_text]
  have hok := @writeKubeconfigs_ok cfg.pki cfg.apiUrl ca _ d hread
  obtain ⟨hks, hothers⟩ := writeKubeconfigs_spec (agentKubeconfigs_nodup _) hok
  refine ⟨hok, fun path => hothers _ fun k _ => (inKubeconfigs_ne_inPki _ _).symm, ?_⟩
  intro k hk ca' crt key hon
  obtain rfl : ca = ca' := Content.text.inj (Option.some.inj (hca.symm.trans hon.ca_eq))
  rw [(hks k hk).2, FileProg.run_files, (writeKubeconfig_spec hon.crt_eq hon.key_eq).1]

section TextBundle

variable {d : Disk} {cfg : Cfg} {k : Kubeconfig} {ca crt key : Text}

/-- On a bundle of texts, a kubeconfig that fails the test is rendered anew. -/
theorem agent_renders (h : TextBundle d) (hk : k ∈ agentKubeconfigs cfg.nodeName)
    (hon : k.OnDisk d ca crt key)
    (hcur : kubeconfigCurrent cfg.apiUrl ca crt (decodeText (d (inKubeconfigs k.out))) = false) :
    ((agent cfg).run d).2 (inKubeconfigs k.out) =
      some (.text (render cfg.apiUrl k.user ca crt key)) := by
  rw [(agent_of_textBundle h cfg).2.2 k hk ca crt key hon, kubeconfigWrites, hcur,
    if_neg Bool.false_ne_true, Files.apply_cons, Files.apply_nil, Files.set_self]

/-- One that passes it is kept. -/
theorem agent_keeps (h : TextBundle d) (hk : k ∈ agentKubeconfigs cfg.nodeName)
    (hon : k.OnDisk d ca crt key)
    (hcur : kubeconfigCurrent cfg.apiUrl ca crt (decodeText (d (inKubeconfigs k.out))) = true) :
    ((agent cfg).run d).2 (inKubeconfigs k.out) = d (inKubeconfigs k.out) := by
  rw [(agent_of_textBundle h cfg).2.2 k hk ca crt key hon, kubeconfigWrites, hcur, if_pos rfl,
    Files.apply_nil]

end TextBundle

/-- The defaults of the command line, for a node named `node`. -/
def Cfg.sample : Cfg where
  pki := "/var/lib/kubenyx/pki".toList
  nodeName := "node".toList
  nodeAddress := none
  apiUrl := "https://127.0.0.1:6443".toList
  clusterDomain := "cluster.local".toList
  serviceIp := "10.96.0.1".toList
  extraSans := []
  nodes := []
  leafDays := 365
  renewDays := 30
  etcd := false
  etcdSans := []
  requireShippedCa := false

theorem textBundle_shipped : TextBundle (shipped needed) := by
  intro f hf
  exact ⟨"old".toList, by decide, if_pos ⟨rfl, hf⟩⟩

end Kubenyx.Pki
