import Kubenyx.Snap.Convention

/-!
# The order of the nodes of a mesh

`mesh_nodes` (lib.rs:1552-1621) sorts the nodes that it was given by flags, by the launcher's
manifest or by the run directory, whose entries come in any order. The comparison is by role,
by number and then by name. Role and number alone do not tell all names apart (`server1` and
`server01` have both in common), the name does.

* `suppliedNodes_perm`: flags, manifest or directory entries in another order supply the same
  nodes in another order.
* `meshNodes_eq_of_perm`: the same nodes in another order give the same list.
* `meshNodes_canonical`: that list is a permutation of the nodes, servers first and numbers
  increasing, so its first node is a server if there is one.
-/

namespace Kubenyx.Snap

open Kubenyx.Common
open Kubenyx.Net (Role)

/-! ## The comparison -/

/-- What the sort compares, as one value: role, number and name. -/
def sortKey (n : MeshNode) : ℕ ×ₗ ℕ ×ₗ Text :=
  toLex ((meshOrderKey n.name).1, toLex ((meshOrderKey n.name).2, n.name))

theorem meshLe_iff {a b : MeshNode} : meshLe a b = true ↔ sortKey a ≤ sortKey b := by
  unfold meshLe sortKey
  rw [decide_eq_true_iff, Prod.Lex.toLex_le_toLex, Prod.Lex.toLex_le_toLex]

theorem meshLe_trans (a b c : MeshNode) (hab : meshLe a b = true) (hbc : meshLe b c = true) :
    meshLe a c = true := by
  rw [meshLe_iff] at hab hbc ⊢
  exact hab.trans hbc

theorem meshLe_total (a b : MeshNode) : (meshLe a b || meshLe b a) = true := by
  rw [Bool.or_eq_true, meshLe_iff, meshLe_iff]
  exact le_total _ _

/-- Two nodes are before each other only if they have the same name. -/
theorem name_eq_of_meshLe {a b : MeshNode} (hab : meshLe a b = true) (hba : meshLe b a = true) :
    a.name = b.name := by
  rw [meshLe_iff] at hab hba
  exact congrArg (fun k => (ofLex (ofLex k).2).2) (hab.antisymm hba)

theorem pairwise_meshLe (nodes : List MeshNode) :
    (nodes.mergeSort meshLe).Pairwise fun a b => meshLe a b = true :=
  List.pairwise_mergeSort meshLe_trans meshLe_total nodes

/-- Distinct names leave the sort no choice. -/
theorem mergeSort_eq_of_perm {nodes nodes' : List MeshNode} (hperm : nodes'.Perm nodes)
    (hnodup : (nodes.map MeshNode.name).Nodup) :
    nodes'.mergeSort meshLe = nodes.mergeSort meshLe := by
  have hsorted : (nodes'.mergeSort meshLe).Perm (nodes.mergeSort meshLe) :=
    (List.mergeSort_perm nodes' meshLe).trans
      (hperm.trans (List.mergeSort_perm nodes meshLe).symm)
  refine List.Perm.eq_of_pairwise ?_ (pairwise_meshLe nodes') (pairwise_meshLe nodes) hsorted
  intro a b ha hb hab hba
  have ha' : a ∈ nodes := hperm.subset (List.mem_mergeSort.mp ha)
  have hb' : b ∈ nodes := List.mem_mergeSort.mp hb
  exact List.inj_on_of_nodup_map hnodup ha' hb' (name_eq_of_meshLe hab hba)

/-! ## Role and number of a name -/

theorem meshOrderKey_fst_eq_zero {name : Text} :
    (meshOrderKey name).1 = 0 ↔ isServerName name = true := by
  unfold meshOrderKey isServerName
  split_ifs with hname
  · simp [hname]
  · rw [decide_eq_false hname, Bool.false_or]
    cases numberSuffix name "server".toList with
    | some n => simp
    | none => cases numberSuffix name "agent".toList <;> simp

/-- The rank of a role in the order. -/
def roleRank : Role → ℕ
  | .server => 0
  | .agent => 1

theorem meshOrderKey_numbered {name : Text} {r : Role} {n : ℕ}
    (h : numberSuffix name r.text = some n) : meshOrderKey name = (roleRank r, n) := by
  obtain ⟨t, rfl, hparse, -⟩ := numberSuffix_eq_some.mp h
  have hne : r.text ++ t ≠ "server".toList := by
    intro hname
    obtain ⟨-, rfl⟩ := @role_text_inj r .server t [] hname
    cases hparse
  unfold meshOrderKey
  rw [if_neg hne]
  cases r with
  | server =>
    rw [show "server".toList = Role.server.text from rfl, h]
    rfl
  | agent =>
    have hserver : numberSuffix (Role.agent.text ++ t) "server".toList = none :=
      numberSuffix_agent_server t
    rw [hserver, show "agent".toList = Role.agent.text from rfl, h]
    rfl

/-- A node that comes first is a server if a later one is. -/
theorem isServerName_of_meshLe {a b : MeshNode} (h : meshLe a b = true)
    (hb : isServerName b.name = true) : isServerName a.name = true := by
  rw [← meshOrderKey_fst_eq_zero] at hb ⊢
  unfold meshLe at h
  rw [decide_eq_true_iff] at h
  omega

theorem number_le_of_meshLe {a b : MeshNode} (h : meshLe a b = true) {r : Role} {n m : ℕ}
    (ha : numberSuffix a.name r.text = some n) (hb : numberSuffix b.name r.text = some m) :
    n ≤ m := by
  unfold meshLe at h
  rw [decide_eq_true_iff, meshOrderKey_numbered ha, meshOrderKey_numbered hb] at h
  dsimp only at h
  omega

/-! ## The nodes before the sort -/

/-- The nodes that `mesh_nodes` sorts (lib.rs:1559-1613). -/
def suppliedNodes (flags : List Text) (runDir : Option RunDir) (manifest : Option RunManifest) :
    Except Text (List MeshNode) := do
  let explicit ← explicitNodes flags
  if explicit ≠ [] then .ok explicit
  else manifest.elim (runDir.elim (.ok []) discoverNodes) fun m => .ok m.nodes

theorem meshNodes_of_supplied {flags : List Text} {runDir : Option RunDir}
    {manifest : Option RunManifest} {nodes : List MeshNode}
    (h : suppliedNodes flags runDir manifest = .ok nodes) (hne : nodes ≠ []) :
    meshNodes flags runDir manifest = .ok (nodes.mergeSort meshLe) := by
  have hbind : meshNodes flags runDir manifest = (suppliedNodes flags runDir manifest).bind
      fun nodes => if nodes = [] then
        .error ("no mesh nodes found (no --node flags and no node workdirs with " ++
          "kubenyx.sock)").toList
      else .ok (nodes.mergeSort meshLe) := by
    unfold meshNodes suppliedNodes
    cases explicitNodes flags with
    | error e => rfl
    | ok explicit =>
      cases explicit with
      | cons n ns => rfl
      | nil => cases manifest <;> cases runDir <;> rfl
  rw [hbind, h]
  exact if_neg hne

/-- The same nodes in another order: of the flags, of the manifest and of the entries that the
    run directory yields. -/
structure Reordered (flags flags' : List Text) (runDir runDir' : Option RunDir)
    (manifest manifest' : Option RunManifest) : Prop where
  flags : ∃ l l', explicitNodes flags = .ok l ∧ explicitNodes flags' = .ok l' ∧ l'.Perm l
  manifest : Option.Rel (fun m m' : RunManifest => m'.nodes.Perm m.nodes) manifest manifest'
  runDir : Option.Rel (fun r r' : RunDir => ∃ es es', r.readDir = .ok es ∧ r'.readDir = .ok es' ∧
    es'.Perm es) runDir runDir'

/-- A loop that fails in no round can take its rounds in another order. -/
theorem mapM_perm {α β ε : Type} {f : α → Except ε β} {l l' : List α} (hperm : l'.Perm l)
    {r : List β} (h : l.mapM f = .ok r) : ∃ r', l'.mapM f = .ok r' ∧ r'.Perm r := by
  have hok : ∀ a ∈ l, ∃ b, f a = .ok b := by
    clear hperm
    induction l generalizing r with
    | nil => simp
    | cons a l ih =>
      rw [List.mapM_cons] at h
      cases hfa : f a with
      | error e => rw [hfa] at h; cases h
      | ok b =>
        cases hrest : l.mapM f with
        | error e => rw [hfa, hrest] at h; cases h
        | ok r' => exact List.forall_mem_cons.mpr ⟨⟨b, hfa⟩, ih hrest⟩
  -- on the list the loop is a map, whose result is permuted with its argument
  cases l with
  | nil =>
    rw [hperm.eq_nil]
    exact ⟨r, h, List.Perm.refl r⟩
  | cons a₀ l =>
    obtain ⟨b₀, -⟩ := hok a₀ List.mem_cons_self
    let g : α → β := fun a => (f a).toOption.getD b₀
    have hg : ∀ a ∈ a₀ :: l, f a = .ok (g a) := by
      intro a ha
      obtain ⟨b, hb⟩ := hok a ha
      show f a = .ok ((f a).toOption.getD b₀)
      rw [hb]
      rfl
    have hr : (a₀ :: l).map g = r := Except.ok.inj ((mapM_ok hg).symm.trans h)
    refine ⟨l'.map g, mapM_ok fun a ha => hg a (hperm.subset ha), ?_⟩
    rw [← hr]
    exact hperm.map g

/-- The addresses of the discovered nodes depend on the number of servers, not on the order of
    the entries. -/
theorem discoverNodes_perm {run run' : RunDir} {es es' : List DirEntry} (hdir : run.readDir = .ok es)
    (hdir' : run'.readDir = .ok es') (hperm : es'.Perm es) {nodes : List MeshNode}
    (h : discoverNodes run = .ok nodes) :
    ∃ nodes', discoverNodes run' = .ok nodes' ∧ nodes'.Perm nodes := by
  have hnames := (hperm.filter DirEntry.hasSocket).map DirEntry.name
  unfold discoverNodes at h ⊢
  rw [hdir] at h
  rw [hdir']
  dsimp only at h ⊢
  rw [(hnames.filter isServerName).length_eq]
  exact mapM_perm hnames h

theorem suppliedNodes_perm {flags flags' : List Text} {runDir runDir' : Option RunDir}
    {manifest manifest' : Option RunManifest}
    (hre : Reordered flags flags' runDir runDir' manifest manifest') {nodes : List MeshNode}
    (h : suppliedNodes flags runDir manifest = .ok nodes) :
    ∃ nodes', suppliedNodes flags' runDir' manifest' = .ok nodes' ∧ nodes'.Perm nodes := by
  obtain ⟨l, l', hl, hl', hperm⟩ := hre.flags
  have hexplicit : ∀ {fs rd m} {l : List MeshNode}, explicitNodes fs = .ok l → l ≠ [] →
      suppliedNodes fs rd m = .ok l := by
    intro fs rd m l hfs hne
    unfold suppliedNodes
    rw [hfs]
    exact if_pos hne
  have helse : ∀ {fs}, explicitNodes fs = .ok [] → ∀ rd (m : Option RunManifest),
      suppliedNodes fs rd m =
        m.elim (rd.elim (.ok []) discoverNodes) fun m => .ok m.nodes := by
    intro fs hfs rd m
    unfold suppliedNodes
    rw [hfs]
    rfl
  by_cases hnil : l = []
  · subst hnil
    obtain rfl := hperm.eq_nil
    rw [helse hl] at h
    rw [helse hl']
    cases hre.manifest with
    | some hm =>
      obtain rfl := Except.ok.inj h
      exact ⟨_, rfl, hm⟩
    | none =>
      cases hre.runDir with
      | none => exact ⟨nodes, h, List.Perm.refl nodes⟩
      | some hdir =>
        obtain ⟨es, es', hes, hes', hentries⟩ := hdir
        exact discoverNodes_perm hes hes' hentries h
  · have hne' : l' ≠ [] := fun hl'nil => hnil (by rw [hl'nil] at hperm; exact hperm.symm.eq_nil)
    rw [hexplicit hl hnil] at h
    obtain rfl := Except.ok.inj h
    exact ⟨l', hexplicit hl' hne', hperm⟩

/-! ## The list -/

section order

variable {flags flags' : List Text} {runDir runDir' : Option RunDir}
  {manifest manifest' : Option RunManifest} {nodes nodes' : List MeshNode}

/-- Where nodes of distinct names came from, and in which order, does not show. -/
theorem meshNodes_eq_of_perm (h' : suppliedNodes flags' runDir' manifest' = .ok nodes')
    (hperm : nodes'.Perm nodes) (hne : nodes ≠ []) (hnodup : (nodes.map MeshNode.name).Nodup) :
    meshNodes flags' runDir' manifest' = .ok (nodes.mergeSort meshLe) := by
  have hne' : nodes' ≠ [] := fun hnil => hne (by rw [hnil] at hperm; exact hperm.symm.eq_nil)
  rw [meshNodes_of_supplied h' hne', mergeSort_eq_of_perm hperm hnodup]

theorem meshNodes_eq_of_reordered
    (hre : Reordered flags flags' runDir runDir' manifest manifest')
    (h : suppliedNodes flags runDir manifest = .ok nodes) (hne : nodes ≠ [])
    (hnodup : (nodes.map MeshNode.name).Nodup) :
    meshNodes flags' runDir' manifest' = .ok (nodes.mergeSort meshLe) := by
  obtain ⟨nodes', h', hperm⟩ := suppliedNodes_perm hre h
  exact meshNodes_eq_of_perm h' hperm hne hnodup

end order

/-- The list has the servers first and the nodes of a role by number. -/
structure Ordered (sorted : List MeshNode) : Prop where
  serversFirst : sorted.Pairwise fun a b => isServerName b.name = true → isServerName a.name = true
  numbered : sorted.Pairwise fun a b => ∀ (r : Role) (n m : ℕ),
    numberSuffix a.name r.text = some n → numberSuffix b.name r.text = some m → n ≤ m

theorem ordered_mergeSort (nodes : List MeshNode) : Ordered (nodes.mergeSort meshLe) where
  serversFirst := (pairwise_meshLe nodes).imp isServerName_of_meshLe
  numbered := (pairwise_meshLe nodes).imp fun h _ _ _ => number_le_of_meshLe h

/-- The first node is a server if there is one at all. -/
theorem Ordered.head_isServerName {sorted : List MeshNode} (h : Ordered sorted) {n : MeshNode}
    (hn : n ∈ sorted) (hserver : isServerName n.name = true) :
    ∃ first, sorted[0]? = some first ∧ isServerName first.name = true := by
  cases sorted with
  | nil => cases hn
  | cons first rest =>
    refine ⟨first, rfl, ?_⟩
    rcases List.mem_cons.mp hn with rfl | hn
    · exact hserver
    · exact (List.pairwise_cons.mp h.serversFirst).1 n hn hserver

/-- Nodes with distinct names give one list, however they were supplied: a permutation of
    them, in which servers come first and numbers increase, with a server at its front if there
    is one. -/
theorem meshNodes_canonical {flags : List Text} {runDir : Option RunDir}
    {manifest : Option RunManifest} {nodes : List MeshNode}
    (h : suppliedNodes flags runDir manifest = .ok nodes) (hne : nodes ≠ [])
    (hnodup : (nodes.map MeshNode.name).Nodup) :
    ∃ sorted, meshNodes flags runDir manifest = .ok sorted ∧
      (∀ flags' runDir' manifest', Reordered flags flags' runDir runDir' manifest manifest' →
        meshNodes flags' runDir' manifest' = .ok sorted) ∧
      (∀ flags' runDir' manifest' nodes', suppliedNodes flags' runDir' manifest' = .ok nodes' →
        nodes'.Perm nodes → meshNodes flags' runDir' manifest' = .ok sorted) ∧
      sorted.Perm nodes ∧ Ordered sorted ∧
      ((∃ n ∈ nodes, isServerName n.name = true) →
        ∃ first, sorted[0]? = some first ∧ isServerName first.name = true) := by
  refine ⟨nodes.mergeSort meshLe, meshNodes_of_supplied h hne, ?_, ?_,
    List.mergeSort_perm nodes meshLe, ordered_mergeSort nodes, ?_⟩
  · intro flags' runDir' manifest' hre
    exact meshNodes_eq_of_reordered hre h hne hnodup
  · intro flags' runDir' manifest' nodes' h' hperm
    exact meshNodes_eq_of_perm h' hperm hne hnodup
  · rintro ⟨n, hn, hserver⟩
    exact (ordered_mergeSort nodes).head_isServerName (List.mem_mergeSort.mpr hn) hserver

/-- The flags for two agents and a server. -/
def agentsFirst : List Text :=
  ["--node", "agent10=10.100.0.12", "--node", "agent2=10.100.0.4", "--node",
    "server=10.100.0.2"].map String.toList

/-- The same flags, the server first. -/
def serverFirst : List Text :=
  ["--node", "server=10.100.0.2", "--node", "agent2=10.100.0.4", "--node",
    "agent10=10.100.0.12"].map String.toList

def threeNodes : List MeshNode :=
  [⟨"agent10".toList, "10.100.0.12".toList⟩, ⟨"agent2".toList, "10.100.0.4".toList⟩,
    ⟨"server".toList, "10.100.0.2".toList⟩]

theorem reordered_threeNodes : Reordered agentsFirst serverFirst none none none none where
  flags := ⟨threeNodes, threeNodes.reverse, by rfl, by rfl, List.reverse_perm threeNodes⟩
  manifest := .none
  runDir := .none

/-- Both orders of the flags give one list, which begins with the server. -/
theorem meshNodes_canonical_threeNodes :
    ∃ sorted, meshNodes agentsFirst none none = .ok sorted ∧
      meshNodes serverFirst none none = .ok sorted ∧
      ∃ first, sorted[0]? = some first ∧ isServerName first.name = true := by
  obtain ⟨sorted, hsorted, hre, -, -, -, hfirst⟩ :=
    @meshNodes_canonical agentsFirst none none threeNodes rfl (by decide) (by decide)
  refine ⟨sorted, hsorted, hre _ _ _ reordered_threeNodes, hfirst ?_⟩
  exact ⟨⟨"server".toList, "10.100.0.2".toList⟩, by decide, by decide⟩

end Kubenyx.Snap
