import Kubenyx.Common.Machine
import Kubenyx.Pki.Agent

/-!
# Re-shipped bundles

What becomes of the kubeconfigs of an agent while the files of its bundle are replaced, one by
one and in any order, and runs read them in between. Of a history it is remembered, for each
kubeconfig, what the run that wrote it last had read: the CA, the certificate and the key as
they were when it came to them.

* `remembers_step`: whatever the interleaving, a kubeconfig is the rendering of that.
* `embeds_iff`: a run that starts after the last file has landed leaves kubeconfigs of what is
  on the disk exactly when for none of them a file has landed after it was read, and the new
  certificate and CA are parts of what was read.
* `reship_keeps_old_key`: the certificate lands, a run reads it, and the key lands.
-/

namespace Kubenyx.Pki

open Kubenyx.Common

variable {name : Text}

/-! ## What the runs have read -/

/-- The text of a file that was read. -/
def textOf : Option Content → Text
  | some (.text t) => t
  | _ => []

/-- What a run renders the kubeconfig with, that has read this last of each file. -/
def Kubeconfig.material (k : Kubeconfig) (apiUrl : Text) (seen : Disk) : Material where
  url := apiUrl
  ca := textOf (seen (inPki "ca.crt".toList))
  crt := textOf (seen (inPki k.crt))
  key := textOf (seen (inPki k.key))

/-- What is remembered of a history. -/
structure Memory where
  /-- The URL of the run under way. -/
  apiUrl : Text
  /-- What it has read last of each file. -/
  seen : Disk
  /-- What the run that has written a kubeconfig last had read before. -/
  drawn : Kubeconfig → Option Material

/-- What a step adds. -/
def Memory.note (s : Node) (a : NodeAction) (h : Memory) : Memory :=
  match a with
  | .land _ _ => h
  | .start cfg => { h with apiUrl := cfg.apiUrl, seen := fun _ => none }
  | .step =>
    match s.running with
    | none => h
    | some m =>
      { h with
        seen := m.look h.seen s.disk
        drawn := fun k =>
          if m.replaces (inKubeconfigs k.out) then some (k.material h.apiUrl h.seen) else h.drawn k }

/-- A kubeconfig of the node gets what the run has read. -/
def Draws (name apiUrl : Text) (seen : Disk) (f : File) (c : Content) : Prop :=
  ∀ k ∈ agentKubeconfigs name, f = inKubeconfigs k.out →
    c = .text ((k.material apiUrl seen).body k.user)

/-- The kubeconfigs are there that have been drawn, and as they were drawn. -/
def Drawn (name : Text) (drawn : Kubeconfig → Option Material) (d : Disk) : Prop :=
  ∀ k ∈ agentKubeconfigs name,
    d (inKubeconfigs k.out) = (drawn k).map fun m => .text (m.body k.user)

theorem informed_readToString_bind {α : Type} {W : Disk → File → Content → Prop}
    {Q : α → Disk → Prop} {f : File} {g : Except IoError Text → Prog α} {seen : Disk}
    (h : ∀ o, (g (decodeText o)).Informed W (Function.update seen f o) Q) :
    (readToString f >>= g).Informed W seen Q := fun o => h o

theorem informed_missingFiles {W : Disk → File → Content → Prop} (fs : List Text) (seen : Disk) :
    (missingFiles fs).Informed W seen fun _ _ => True := by
  induction fs generalizing seen with
  | nil => trivial
  | cons f fs ih =>
    intro o
    show (missingFiles fs >>= fun rest => _).Informed W _ _
    exact FileProg.Informed.bind ((ih _).mono fun _ _ _ => trivial)

/-- The files of a kubeconfig are three. -/
theorem agentKubeconfigs_files {k : Kubeconfig} (hk : k ∈ agentKubeconfigs name) :
    k.crt ≠ "ca.crt".toList ∧ k.key ≠ "ca.crt".toList ∧ k.key ≠ k.crt := by
  rcases mem_agentKubeconfigs.mp hk with rfl | rfl | rfl <;> dsimp only <;> decide

/-- A kubeconfig is rendered with what was read of its files, after the CA was. -/
theorem informed_writeKubeconfig {k : Kubeconfig} (hk : k ∈ agentKubeconfigs name)
    {pki apiUrl ca : Text} {seen : Disk} (hca : seen (inPki "ca.crt".toList) = some (.text ca)) :
    (writeKubeconfig pki apiUrl ca k).Informed (Draws name apiUrl) seen
      fun _ seen' => seen' (inPki "ca.crt".toList) = some (.text ca) := by
  obtain ⟨hcrtCa, hkeyCa, hkeyCrt⟩ := agentKubeconfigs_files hk
  refine informed_readToString_bind fun crt => ?_
  cases hcrt : decodeText crt with
  | error e => trivial
  | ok crtPem =>
    refine informed_readToString_bind fun key => ?_
    cases hkey : decodeText key with
    | error e => trivial
    | ok keyPem =>
      obtain rfl := decodeText_eq_ok hcrt
      obtain rfl := decodeText_eq_ok hkey
      refine informed_readToString_bind fun body => ?_
      have hseen : Function.update (Function.update (Function.update seen (inPki k.crt)
          (some (.text crtPem))) (inPki k.key) (some (.text keyPem))) (inKubeconfigs k.out) body
            (inPki "ca.crt".toList) = some (.text ca) := by
        rw [Function.update_of_ne (inKubeconfigs_ne_inPki _ _).symm,
          Function.update_of_ne (inPki_injective.ne hkeyCa.symm), Function.update_of_ne (inPki_injective.ne hcrtCa.symm), hca]
      cases kubeconfigCurrent apiUrl ca crtPem (decodeText body) with
      | true => exact hseen
      | false =>
        refine ⟨fun l hl heq => ?_, hseen⟩
        obtain rfl := List.inj_on_of_nodup_map (agentKubeconfigs_nodup _) hk hl (File.mk.inj heq).2
        unfold Kubeconfig.material Material.body
        rw [hseen, Function.update_of_ne (inKubeconfigs_ne_inPki _ _).symm,
          Function.update_of_ne (inKubeconfigs_ne_inPki _ _).symm,
          Function.update_of_ne (inPki_injective.ne hkeyCrt.symm), Function.update_self, Function.update_self]
        rfl

/-- Whatever a run reads, it draws kubeconfigs with it. -/
theorem agent_informed {cfg : Cfg} (hname : cfg.nodeName = name) (seen : Disk) :
    (agent cfg).Informed (Draws name cfg.apiUrl) seen fun _ _ => True := by
  subst hname
  refine FileProg.Informed.bind ((informed_missingFiles _ _).mono fun missing seen' _ => ?_)
  by_cases hmissing : missing ≠ []
  · rw [if_pos hmissing]
    trivial
  rw [if_neg hmissing]
  refine informed_readToString_bind fun _ => informed_readToString_bind fun ca => ?_
  cases hca : decodeText ca with
  | error e => trivial
  | ok ca =>
    obtain rfl := decodeText_eq_ok hca
    refine FileProg.Informed.mono (FileProg.Informed.forM (fun k hk seen hseen =>
      informed_writeKubeconfig hk hseen) ?_) fun _ _ _ => trivial
    exact Function.update_self ..

/-- The kubeconfigs are as they were drawn, and the run under way draws them with what it has
    read. -/
structure Remembers (name : Text) (s : Node) (h : Memory) : Prop where
  drawn : Drawn name h.drawn s.disk
  running : ∀ m, s.running = some m → m.Informed (Draws name h.apiUrl) h.seen fun _ _ => True

/-- Where no run is under way, nothing has been read. -/
theorem Remembers.idle {s : Node} {drawn : Kubeconfig → Option Material} (h : Drawn name drawn s.disk)
    (hidle : s.running = none) : Remembers name s ⟨[], fun _ => none, drawn⟩ :=
  ⟨h, fun _ hm => nomatch hidle.symm.trans hm⟩

/-- What every step keeps. -/
theorem remembers_step {s s' : Node} {a : NodeAction} {h : Memory} (hstep : s.step name a = some s')
    (hs : Remembers name s h) : Remembers name s' (h.note s a) := by
  obtain ⟨hdrawn, hrun⟩ := hs
  match a with
  | .land path c =>
    cases hstep
    refine ⟨fun k hk => ?_, hrun⟩
    exact (Files.set_of_ne s.disk c (inKubeconfigs_ne_inPki k.out path)).trans (hdrawn k hk)
  | .start cfg =>
    simp only [Node.step] at hstep
    split_ifs at hstep with hidle
    cases hstep
    exact ⟨hdrawn, fun m hm => Option.some.inj hm ▸ agent_informed hidle.2 _⟩
  | .step =>
    unfold Node.step at hstep
    unfold Memory.note
    rcases hm : s.running with _ | m
    · rw [hm] at hstep
      cases hstep
    · rw [hm] at hstep
      have hinformed := hrun m hm
      match m with
      | .pure a =>
        cases hstep
        exact ⟨hdrawn, nofun⟩
      | .fail e =>
        cases hstep
        exact ⟨hdrawn, nofun⟩
      | .read p k =>
        cases hstep
        exact ⟨hdrawn, fun m hm => Option.some.inj hm ▸ hinformed (s.disk p)⟩
      | .write p c next =>
        cases hstep
        refine ⟨fun k hk => ?_, fun m hm => Option.some.inj hm ▸ hinformed.2⟩
        show (s.disk.set p c) (inKubeconfigs k.out) = Option.map _ (if decide _ = true then _ else _)
        by_cases hp : p = inKubeconfigs k.out
        · rw [if_pos (decide_eq_true hp), ← hp, Files.set_self, hinformed.1 k hk hp]
          rfl
        · rw [if_neg (by simpa using hp), Files.set_of_ne _ _ (Ne.symm hp)]
          exact hdrawn k hk

/-! ## What the last run leaves -/

namespace Kubeconfig

/-- The kubeconfig embeds exactly the CA, the certificate and the key on the disk. -/
def Embeds (k : Kubeconfig) (d : Disk) : Prop :=
  ∃ url ca crt key, k.OnDisk d ca crt key ∧
    d (inKubeconfigs k.out) = some (.text (render url k.user ca crt key))

/-- The run that drew the kubeconfig has missed a file: one that has landed after it was read
    is another one. And the certificate, the CA and the server of the next run are still found in
    what it drew. -/
def Missed (k : Kubeconfig) (m : Material) (apiUrl : Text) (d : Disk) : Prop :=
  ∃ ca crt key, k.OnDisk d ca crt key ∧ (m.ca ≠ ca ∨ m.crt ≠ crt ∨ m.key ≠ key) ∧
    m.Serves k.user apiUrl ∧ m.Shows k.user crt ∧ m.Shows k.user ca

theorem embeds_iff_of_onDisk {k : Kubeconfig} {d : Disk} {ca crt key : Text}
    (h : k.OnDisk d ca crt key) :
    k.Embeds d ↔ ∃ url, d (inKubeconfigs k.out) = some (.text (render url k.user ca crt key)) := by
  constructor
  · rintro ⟨url, ca', crt', key', h', hbody⟩
    obtain ⟨rfl, rfl, rfl⟩ := h.unique h'
    exact ⟨url, hbody⟩
  · rintro ⟨url, hbody⟩
    exact ⟨url, ca, crt, key, h, hbody⟩

/-- Writing a kubeconfig gives it what is on the disk unless the run that drew it has missed a
    file. -/
theorem embeds_write_iff {k : Kubeconfig} {pki apiUrl ca crt key : Text} {d : Disk}
    {drawn : Option Material} (hdisk : k.OnDisk d ca crt key)
    (hdrawn : d (inKubeconfigs k.out) = drawn.map fun m => .text (m.body k.user)) :
    (∃ url, ((writeKubeconfig pki apiUrl ca k).run d).2 (inKubeconfigs k.out) =
      some (.text (render url k.user ca crt key))) ↔
      ∀ m, drawn = some m → ¬ k.Missed m apiUrl d := by
  rw [FileProg.run_files, (writeKubeconfig_spec hdisk.crt_eq hdisk.key_eq).1]
  unfold kubeconfigWrites
  have hrewritten : ∃ url, d.apply [(inKubeconfigs k.out, .text (render apiUrl k.user ca crt key))]
      (inKubeconfigs k.out) = some (.text (render url k.user ca crt key)) :=
    ⟨apiUrl, Files.set_self ..⟩
  rcases drawn with _ | m
  · rw [hdrawn]
    exact iff_of_true hrewritten nofun
  have hfile : d (inKubeconfigs k.out) = some (.text (m.body k.user)) := hdrawn
  rw [hfile, decodeText_text]
  simp only [Option.some.injEq, forall_eq']
  have hcur := m.current_iff k.user apiUrl ca crt
  by_cases htest : kubeconfigCurrent apiUrl ca crt (.ok (m.body k.user)) = true
  · rw [if_pos htest, Files.apply_nil, hfile]
    constructor
    · rintro ⟨url, hright⟩ ⟨ca', crt', key', hdisk', hother, -⟩
      obtain ⟨rfl, rfl, rfl⟩ := hdisk.unique hdisk'
      obtain ⟨hca, hcrt, hkey⟩ := render_inj (Content.text.inj (Option.some.inj hright))
      exact hother.elim (· hca) fun h => h.elim (· hcrt) (· hkey)
    · intro hmissed
      have hsame : m.ca = ca ∧ m.crt = crt ∧ m.key = key := by
        by_contra hother
        refine hmissed ⟨ca, crt, key, hdisk, ?_, hcur.mp htest⟩
        rwa [not_and_or, not_and_or] at hother
      obtain ⟨rfl, rfl, rfl⟩ := hsame
      exact ⟨m.url, rfl⟩
  · rw [if_neg htest]
    refine iff_of_true hrewritten ?_
    rintro ⟨ca', crt', key', hdisk', -, hfound⟩
    obtain ⟨rfl, rfl, rfl⟩ := hdisk.unique hdisk'
    exact htest (hcur.mpr hfound)

end Kubeconfig

/-- Whatever the interleaving of arriving files and runs before it, a run that starts after the
    last file has landed and completes leaves kubeconfigs of exactly what is on the disk if and
    only if of no kubeconfig a file was missed by the run that drew it last. -/
theorem embeds_iff {cfg : Cfg} {s₀ s s' : Node} {drawn : Kubeconfig → Option Material}
    {as : List NodeAction} {n : ℕ} (h₀ : Drawn name drawn s₀.disk) (hidle : s₀.running = none)
    (hexec : exec (Node.step name) s₀ as = some s)
    (hlast : exec (Node.step name) s (.start cfg :: List.replicate n .step) = some s')
    (hend : s'.running = none)
    (hbundle : ∀ f ∈ needed, isNonEmpty (s.disk (inPki f)) = true)
    (hok : ((agent cfg).run s.disk).1 = .ok ()) :
    (∀ k ∈ agentKubeconfigs name, k.Embeds s'.disk) ↔
      ∀ k ∈ agentKubeconfigs name, ∀ m,
        (remember (Node.step name) Memory.note s₀ ⟨[], fun _ => none, drawn⟩ as).drawn k = some m →
          ¬ k.Missed m cfg.apiUrl s.disk := by
  have hremembers := remember_invariant (fun _ _ _ _ => remembers_step) hexec (Remembers.idle h₀ hidle)
  obtain ⟨s₁, hrun, hsteps⟩ := exec_cons_iff.mp hlast
  simp only [Node.step] at hrun
  split_ifs at hrun with henabled
  obtain rfl := Option.some.inj hrun
  obtain ⟨-, rfl⟩ := henabled
  have hdisk := Node.exec_steps hsteps hend
  rw [agent_spec hbundle] at hok hdisk
  cases hca : decodeText (s.disk (inPki "ca.crt".toList)) with
  | error e =>
    rw [hca] at hok
    cases hok
  | ok ca =>
    rw [hca] at hok hdisk
    obtain ⟨hks, hothers⟩ := writeKubeconfigs_spec (agentKubeconfigs_nodup _) hok
    have hpki : ∀ path, s'.disk (inPki path) = s.disk (inPki path) := fun path =>
      hdisk ▸ hothers _ fun k _ => (inKubeconfigs_ne_inPki _ _).symm
    refine forall₂_congr fun k hk => ?_
    obtain ⟨⟨⟨crt, hcrt⟩, key, hkey⟩, hfile⟩ := hks k hk
    have hon : k.OnDisk s.disk ca crt key := ⟨decodeText_eq_ok hca, hcrt, hkey⟩
    rw [Kubeconfig.embeds_iff_of_onDisk (hon.of_eq hpki), hdisk, hfile]
    exact Kubeconfig.embeds_write_iff hon (hremembers.drawn k hk)

/-! ## What has landed -/

namespace Kubeconfig

variable {k : Kubeconfig} {d : Disk} {ca crt key : Text}

/-- A file that lands and is another one leaves the files of a kubeconfig. -/
theorem OnDisk.land (h : k.OnDisk d ca crt key) {path : Text} (c : Content)
    (hpath : path ∉ ["ca.crt".toList, k.crt, k.key]) : k.OnDisk (d.set (inPki path) c) ca crt key := by
  have hkept : ∀ f ∈ ["ca.crt".toList, k.crt, k.key], d.set (inPki path) c (inPki f) = d (inPki f) :=
    fun f hf => Files.set_of_ne _ _ (inPki_injective.ne fun heq => hpath (heq ▸ hf))
  refine ⟨(hkept _ ?_).trans h.ca_eq, (hkept _ ?_).trans h.crt_eq, (hkept _ ?_).trans h.key_eq⟩
  all_goals simp

theorem OnDisk.land_crt (h : k.OnDisk d ca crt key) (hk : k ∈ agentKubeconfigs name) (t : Text) :
    k.OnDisk (d.set (inPki k.crt) (.text t)) ca t key := by
  obtain ⟨hcrtCa, -, hkeyCrt⟩ := agentKubeconfigs_files hk
  exact ⟨(Files.set_of_ne _ _ (inPki_injective.ne hcrtCa.symm)).trans h.ca_eq, Files.set_self ..,
    (Files.set_of_ne _ _ (inPki_injective.ne hkeyCrt)).trans h.key_eq⟩

theorem OnDisk.land_key (h : k.OnDisk d ca crt key) (hk : k ∈ agentKubeconfigs name) (t : Text) :
    k.OnDisk (d.set (inPki k.key) (.text t)) ca crt t := by
  obtain ⟨-, hkeyCa, hkeyCrt⟩ := agentKubeconfigs_files hk
  exact ⟨(Files.set_of_ne _ _ (inPki_injective.ne hkeyCa.symm)).trans h.ca_eq,
    (Files.set_of_ne _ _ (inPki_injective.ne hkeyCrt.symm)).trans h.crt_eq, Files.set_self ..⟩

end Kubeconfig

/-! A bundle that is shipped to a node, and shipped again with another certificate of the
kubelet. -/

theorem onDisk_shipped {k : Kubeconfig} (hk : k ∈ agentKubeconfigs name) :
    k.OnDisk (shipped needed) "old".toList "old".toList "old".toList := by
  rcases mem_agentKubeconfigs.mp hk with rfl | rfl | rfl <;> exact ⟨rfl, rfl, rfl⟩

/-- The first run renders the old bundle. -/
theorem rendered_shipped {k : Kubeconfig} (hk : k ∈ agentKubeconfigs "node".toList) :
    ((agent Cfg.sample).run (shipped needed)).2 (inKubeconfigs k.out) =
      some (.text (render Cfg.sample.apiUrl k.user "old".toList "old".toList "old".toList)) :=
  agent_renders textBundle_shipped hk (onDisk_shipped hk) rfl

/-- A kubeconfig does not pass the test for a certificate that it does not embed. -/
theorem sample_not_current :
    kubeconfigCurrent Cfg.sample.apiUrl "old".toList "new".toList
      (.ok (render Cfg.sample.apiUrl "system:node:node".toList "old".toList "old".toList
        "old".toList)) = false := by
  decide +kernel

/-- The key arrives before the certificate: what the first run drew does not show the new
    certificate, so that the next run draws anew. -/
theorem embeds_of_key_first :
    let d₁ := ((agent Cfg.sample).run (shipped needed)).2
    let d₂ := (d₁.set (inPki "kubelet.key".toList) (.text "new".toList)).set
      (inPki "kubelet.crt".toList) (.text "new".toList)
    ∃ s, exec (Node.step "node".toList) ⟨shipped needed, none⟩
        (Node.wholeRun Cfg.sample (shipped needed) ++
          .land "kubelet.key".toList (.text "new".toList) ::
          .land "kubelet.crt".toList (.text "new".toList) :: Node.wholeRun Cfg.sample d₂) = some s ∧
      ∀ k ∈ agentKubeconfigs "node".toList, k.Embeds s.disk := by
  intro d₁ d₂
  have hpki₁ : ∀ path, d₁ (inPki path) = shipped needed (inPki path) :=
    (agent_of_textBundle textBundle_shipped Cfg.sample).2.1
  have hrendered : ∀ k ∈ agentKubeconfigs "node".toList, d₁ (inKubeconfigs k.out) = _ :=
    fun k hk => rendered_shipped hk
  have hland : ∀ path c as, exec (Node.step "node".toList) ⟨shipped needed, none⟩
      (Node.wholeRun Cfg.sample (shipped needed) ++ .land path c :: as) =
        exec (Node.step "node".toList) ⟨d₁.set (inPki path) c, none⟩ as :=
    Node.exec_wholeRun_land Cfg.sample _
  clear_value d₁
  have hbundle : TextBundle d₂ :=
    ((textBundle_shipped.of_eq hpki₁).set (by decide)).set (by decide)
  have hok := (agent_of_textBundle hbundle Cfg.sample).1
  obtain ⟨s, hlast, hend⟩ : ∃ s, exec (Node.step "node".toList) ⟨d₂, none⟩
      (Node.wholeRun Cfg.sample d₂) = some s ∧ s.running = none :=
    ⟨_, Node.exec_wholeRun Cfg.sample d₂, rfl⟩
  refine ⟨s, (hland ..).trans (exec_cons_iff.mpr ⟨⟨d₂, none⟩, rfl, hlast⟩), ?_⟩
  have hdrawn : Drawn "node".toList (fun _ => none) (⟨shipped needed, none⟩ : Node).disk := by
    intro k hk
    rcases mem_agentKubeconfigs.mp hk with rfl | rfl | rfl <;> rfl
  have hexec : exec (Node.step "node".toList) ⟨shipped needed, none⟩
      (Node.wholeRun Cfg.sample (shipped needed) ++
        [.land "kubelet.key".toList (.text "new".toList),
          .land "kubelet.crt".toList (.text "new".toList)]) = some ⟨d₂, none⟩ := hland ..
  have hremembers := remember_invariant (fun _ _ _ _ => remembers_step) hexec (Remembers.idle hdrawn rfl)
  refine (embeds_iff hdrawn rfl hexec hlast hend hbundle.nonEmpty hok).mpr ?_
  rintro k hk m hm ⟨ca, crt, key, hon, hother, hfound⟩
  have hbody : m.body k.user =
      render Cfg.sample.apiUrl k.user "old".toList "old".toList "old".toList := by
    have hfile := hremembers.drawn k hk
    rw [hm] at hfile
    have hkept : d₂ (inKubeconfigs k.out) = d₁ (inKubeconfigs k.out) :=
      (Files.set_of_ne _ _ (inKubeconfigs_ne_inPki _ _)).trans
        (Files.set_of_ne _ _ (inKubeconfigs_ne_inPki _ _))
    exact Content.text.inj (Option.some.inj (hfile.symm.trans (hkept.trans (hrendered k hk))))
  obtain ⟨hca, hcrt, hkey⟩ := render_inj hbody
  have htest := (m.current_iff k.user _ ca crt).mpr hfound
  rw [hbody] at htest
  have hon₁ := (onDisk_shipped hk).of_eq hpki₁
  rcases mem_agentKubeconfigs.mp hk with hkubelet | hothers
  · rw [hkubelet] at hon hon₁ htest
    rw [hkubelet] at hk
    obtain ⟨rfl, rfl, rfl⟩ := hon.unique ((hon₁.land_key hk "new".toList).land_crt hk "new".toList)
    exact absurd htest (Bool.eq_false_iff.mp sample_not_current)
  · have hfiles : "kubelet.key".toList ∉ ["ca.crt".toList, k.crt, k.key] ∧
        "kubelet.crt".toList ∉ ["ca.crt".toList, k.crt, k.key] := by
      rcases hothers with rfl | rfl <;> dsimp only <;> decide
    obtain ⟨rfl, rfl, rfl⟩ := hon.unique ((hon₁.land _ hfiles.1).land _ hfiles.2)
    exact hother.elim (· hca) fun h => h.elim (· hcrt) (· hkey)

/-- A bundle is rendered, then re-shipped: the new certificate arrives, a run sees it
    beside the old key, and then the new key arrives. The last run finds the server and
    both certificates in the kubeconfig and leaves the old key there. -/
theorem reship_keeps_old_key :
    let d₁ := ((agent Cfg.sample).run (shipped needed)).2
    let d₂ := d₁.set (inPki "kubelet.crt".toList) (.text "new".toList)
    let d₃ := ((agent Cfg.sample).run d₂).2
    let d₄ := d₃.set (inPki "kubelet.key".toList) (.text "new".toList)
    exec (Node.step "node".toList) ⟨shipped needed, none⟩
        (Node.wholeRun Cfg.sample (shipped needed) ++
          .land "kubelet.crt".toList (.text "new".toList) :: (Node.wholeRun Cfg.sample d₂ ++
            .land "kubelet.key".toList (.text "new".toList) :: Node.wholeRun Cfg.sample d₄)) =
      some ⟨((agent Cfg.sample).run d₄).2, none⟩ ∧
    ((agent Cfg.sample).run d₄).1 = .ok () ∧
    ¬ ∀ k ∈ agentKubeconfigs "node".toList, k.Embeds ((agent Cfg.sample).run d₄).2 := by
  intro d₁ d₂ d₃ d₄
  have hb₀ := agent_of_textBundle textBundle_shipped Cfg.sample
  have hbundle₂ : TextBundle d₂ := (textBundle_shipped.of_eq hb₀.2.1).set (by decide)
  have hb₂ := agent_of_textBundle hbundle₂ Cfg.sample
  have hbundle₄ : TextBundle d₄ := (hbundle₂.of_eq hb₂.2.1).set (by decide)
  have hb₄ := agent_of_textBundle hbundle₄ Cfg.sample
  refine ⟨?_, hb₄.1, fun hall => ?_⟩
  · exact (Node.exec_wholeRun_land Cfg.sample _ _ _ _).trans
      ((Node.exec_wholeRun_land Cfg.sample _ _ _ _).trans (Node.exec_wholeRun Cfg.sample d₄))
  · let k : Kubeconfig := ⟨"kubelet.kubeconfig".toList, "system:node:node".toList,
      "kubelet.crt".toList, "kubelet.key".toList⟩
    have hk : k ∈ agentKubeconfigs "node".toList := List.mem_cons_self
    have hon₁ := (onDisk_shipped hk).of_eq hb₀.2.1
    have hon₂ : k.OnDisk d₂ "old".toList "new".toList "old".toList := hon₁.land_crt hk _
    have hon₄ : k.OnDisk d₄ "old".toList "new".toList "new".toList :=
      (hon₂.of_eq hb₂.2.1).land_key hk _
    -- The second run renders the new certificate with the old key.
    have hbody₂ : d₂ (inKubeconfigs k.out) = _ :=
      (Files.set_of_ne _ _ (inKubeconfigs_ne_inPki _ _)).trans (rendered_shipped hk)
    have hbody₃ : d₃ (inKubeconfigs k.out) = some (.text (render Cfg.sample.apiUrl k.user
        "old".toList "new".toList "old".toList)) := by
      refine agent_renders hbundle₂ hk hon₂ ?_
      rw [hbody₂, decodeText_text]
      exact sample_not_current
    have hbody₄ : d₄ (inKubeconfigs k.out) = _ :=
      (Files.set_of_ne _ _ (inKubeconfigs_ne_inPki _ _)).trans hbody₃
    -- The third finds it up to date.
    have hbody₅ : ((agent Cfg.sample).run d₄).2 (inKubeconfigs k.out) = d₄ (inKubeconfigs k.out) := by
      refine agent_keeps hbundle₄ hk hon₄ ?_
      rw [hbody₄, decodeText_text, current_render]
    rw [hbody₄] at hbody₅
    obtain ⟨url, hbody⟩ := (Kubeconfig.embeds_iff_of_onDisk (hon₄.of_eq hb₄.2.1)).mp (hall k hk)
    rw [hbody₅] at hbody
    have hkeys := (render_inj (Content.text.inj (Option.some.inj hbody))).2.2
    exact absurd hkeys (by decide)

end Kubenyx.Pki
