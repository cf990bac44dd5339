import Kubenyx.Net.Carve

/-!
# Pod subnets of the nodes

Model of the assertions of modules/default.nix:295-333 and of the pod subnets that the
declared nodes own (modules/default.nix:224-227, modules/network.nix:248): the one with the
node's index in the cluster block, a /24 of an IPv4 and a /64 of an IPv6 block. The assertion
on the indices counts from the first address of the cluster block, the carving from the
address that is written, which need not be the first.

* `podSubnets_safe_iff`: the pod subnets lie in the cluster block and do not overlap, exactly
  when the index of every node leaves room after the subnet that the base address is in.
-/

namespace Kubenyx.Net

open Kubenyx.Common

/-- A `role`. -/
inductive Role where
  | server
  | agent
  deriving DecidableEq, Repr

def Role.text : Role → Text
  | .server => "server".toList
  | .agent => "agent".toList

/-- `nodeSubmodule` (modules/default.nix:10-44); an index is of type `ints.between 0 255`. -/
structure Node where
  address : Option Text
  index : Fin 256
  role : Role
  deriving DecidableEq

/-- The options that the assertions read; `nodes` is an attribute set. -/
structure Config where
  role : Role
  nodeName : Text
  controlPlaneEndpoint : Option Text
  lbEnable : Bool
  clusterCidr : Text
  serviceCidr : Text
  nodes : List (Text × Node)
  nodup : (nodes.map Prod.fst).Nodup

/-- An assertion with its message; `none` if the condition does not evaluate. -/
structure Assertion where
  assertion : Option Bool
  message : Text

namespace Config

variable (cfg : Config)

/-- `attrValues nodes`. -/
def nodeValues : List Node := cfg.nodes.map Prod.snd

/-- `serverCount` (modules/default.nix:46). -/
def serverCount : ℕ := (cfg.nodeValues.filter (·.role = .server)).length

/-- `lib.unique`. -/
def unique (l : List (Fin 256)) : List (Fin 256) :=
  l.foldl (fun acc e => if e ∈ acc then acc else acc ++ [e]) []

/-- The length that the pod subnets of a cluster block have. -/
def carve : ℕ := if isV6 cfg.clusterCidr then 64 else 24

def nodeNameDeclared : Assertion where
  assertion := some (cfg.nodes.lookup cfg.nodeName).isSome
  message := "kubenyx: nodeName ".toList ++ cfg.nodeName ++
    " is not declared in kubenyx.nodes".toList

def ownRole : Assertion where
  assertion := some (((cfg.nodes.lookup cfg.nodeName).elim cfg.role Node.role) = cfg.role)
  message := "kubenyx: this machine's kubenyx.role (".toList ++ cfg.role.text ++
    ") does not match its own kubenyx.nodes.".toList ++ cfg.nodeName ++ ".role entry".toList

def hasServer : Assertion where
  assertion := some (1 ≤ cfg.serverCount)
  message := "kubenyx: at least one node in kubenyx.nodes must declare role = \"server\"".toList

def agentEndpoint : Assertion where
  assertion := some (cfg.role ≠ .agent ∨ cfg.controlPlaneEndpoint ≠ none ∨ cfg.lbEnable = true)
  message := ("kubenyx: role = \"agent\" requires controlPlaneEndpoint (the server address agents " ++
    "dial) unless kubenyx-lb covers it (multi-server cluster, lb.enable)").toList

def uniqueIndices : Assertion where
  assertion := some (cfg.nodeValues.length = (unique (cfg.nodeValues.map Node.index)).length)
  message := "kubenyx: node indices must be unique".toList

def addressesSet : Assertion where
  assertion := some (cfg.nodes.length = 1 ∨ cfg.nodeValues.all (·.address ≠ none) = true)
  message := "kubenyx: multi-node clusters must set an address for every node".toList

def singleStack : Assertion where
  assertion :=
    let v6 := isV6 cfg.clusterCidr
    let addresses := cfg.nodeValues.filterMap Node.address
    some (isV6 cfg.serviceCidr = v6 ∧ addresses.all (fun a => isV6 a = v6) = true)
  message := ("kubenyx: single-stack only — network.clusterCidr, network.serviceCidr and every " ++
    "kubenyx.nodes.<name>.address must share one address family (all IPv4 or all IPv6); " ++
    "dual-stack is not supported").toList

def indexInside : Assertion where
  assertion := (cidrPrefix cfg.clusterCidr).map fun pfx =>
    let headroom : ℤ := min 8 (cfg.carve - pfx)
    pfx ≤ cfg.carve && cfg.nodeValues.all fun n => n.index < pow2 headroom.toNat
  message := ("kubenyx: a node index places its pod subnet outside network.clusterCidr (v4: " ++
    "prefix <= 24, index < 2^(24 - prefix); v6: prefix <= 64, index < 2^(64 - prefix))").toList

/-- `assertions` (modules/default.nix:284-333), less the warning about two servers. -/
def assertions : List Assertion :=
  [cfg.nodeNameDeclared, cfg.ownRole, cfg.hasServer, cfg.agentEndpoint, cfg.uniqueIndices,
    cfg.addressesSet, cfg.singleStack, cfg.indexInside]

/-- All assertions hold. -/
def satisfied : Prop := ∀ a ∈ cfg.assertions, a.assertion = some true

instance : Decidable cfg.satisfied := inferInstanceAs (Decidable (∀ a ∈ cfg.assertions, _))

/-- The block that is written for the pod subnet of a node. -/
def PodSubnet (n : Node) (P : Block) : Prop :=
  ∃ t, nodePodCidr cfg.clusterCidr cfg.carve n.index = some t ∧ Writes t P

/-- The pod subnet of every node lies in the cluster block, and those of two nodes have no
    address in common. -/
structure CarvedSafely (B : Block) : Prop where
  inside : ∀ n ∈ cfg.nodes, ∃ P, cfg.PodSubnet n.2 P ∧ P.addresses ⊆ B.addresses
  disjoint : ∀ n ∈ cfg.nodes, ∀ m ∈ cfg.nodes, n.1 ≠ m.1 → ∀ P Q, cfg.PodSubnet n.2 P →
    cfg.PodSubnet m.2 Q → Disjoint P.addresses Q.addresses

end Config

/-! ## Where a pod subnet begins -/

/-- The length of the pod subnets of a family. -/
def Family.carve : Family → ℕ
  | .v4 => 24
  | .v6 => 64

/-- The first address of the pod subnet with an index; the IPv6 addresses begin again at
    zero. -/
def podStart (B : Block) (i : ℕ) : ℕ :=
  match B.family with
  | .v4 => B.base + 2 ^ 8 * i
  | .v6 => (B.base + 2 ^ 64 * i) % 2 ^ 128

/-- The pod subnet that the base address is in has at least `i` others after it in the
    block. All addresses together are left by no IPv6 subnet. -/
def HasRoom (B : Block) (i : ℕ) : Prop :=
  B.base % 2 ^ B.free / 2 ^ (B.family.bits - Family.carve B.family) + i <
      2 ^ (Family.carve B.family - B.len) ∨
    (B.family = .v6 ∧ B.len = 0)

section start

variable {cfg : Config} {B P Q : Block} {n m : Node}

theorem carve_eq (h : Writes cfg.clusterCidr B) : cfg.carve = Family.carve B.family := by
  have hv6 := (writes_read h).2.2
  unfold Config.carve
  cases hf : B.family with
  | v4 => exact if_neg (by rw [hv6, hf]; decide)
  | v6 => exact if_pos (by rw [hv6, hf])

theorem podSubnet_iff (h : Writes cfg.clusterCidr B) :
    cfg.PodSubnet n P ↔
      P.family = B.family ∧ P.base = podStart B n.index ∧ P.len = Family.carve B.family := by
  unfold Config.PodSubnet podStart
  rw [carve_eq h]
  cases hf : B.family with
  | v4 => exact writes_nodePodCidr_v4 h hf n.index.isLt
  | v6 => exact writes_nodePodCidr_v6 h hf n.index.isLt

/-- A block with the start of the pod subnet as its base, if that is an address. -/
theorem exists_podSubnet_iff (h : Writes cfg.clusterCidr B) (hlen : B.len ≤ Family.carve B.family) :
    (∃ P, cfg.PodSubnet n P ∧ P.addresses ⊆ B.addresses) ↔
      podStart B n.index < 2 ^ B.family.bits ∧
        podStart B n.index / 2 ^ B.free = B.base / 2 ^ B.free := by
  constructor
  · rintro ⟨P, hP, hsub⟩
    obtain ⟨hf, hbase, hcarve⟩ := (podSubnet_iff h).mp hP
    rw [Block.subset_iff hf (by omega), hbase] at hsub
    have hlt := P.base_lt
    rw [hf, hbase] at hlt
    exact ⟨hlt, hsub⟩
  · rintro ⟨hlt, hquot⟩
    have hle : Family.carve B.family ≤ B.family.bits := by cases B.family <;> decide
    let P : Block := ⟨B.family, podStart B n.index, Family.carve B.family, hlt, hle⟩
    exact ⟨P, (podSubnet_iff h).mpr ⟨rfl, rfl, rfl⟩, (@Block.subset_iff B P rfl hlen).mpr hquot⟩

/-- Adding subnets does not leave the block as long as there is room after the one that the
    base is in. -/
theorem div_eq_iff_room (b s k i : ℕ) :
    (b + 2 ^ s * i) / 2 ^ (s + k) = b / 2 ^ (s + k) ↔ b % 2 ^ (s + k) / 2 ^ s + i < 2 ^ k := by
  have hquot : (b + 2 ^ s * i) / 2 ^ (s + k) =
      b / 2 ^ (s + k) + (b % 2 ^ (s + k) + 2 ^ s * i) / 2 ^ (s + k) := by
    conv_lhs => rw [← Nat.div_add_mod b (2 ^ (s + k)), Nat.add_assoc]
    rw [Nat.mul_add_div (by positivity)]
  have hpow : 2 ^ (s + k) = 2 ^ k * 2 ^ s := by rw [pow_add, Nat.mul_comm]
  rw [hquot, Nat.add_eq_left, Nat.div_eq_zero_iff_lt (by positivity), hpow,
    ← Nat.div_lt_iff_lt_mul (by positivity), Nat.add_mul_div_left _ _ (by positivity)]

theorem inside_iff_v4 (hf : B.family = .v4) (hlen : B.len ≤ 24) (i : ℕ) :
    (podStart B i < 2 ^ B.family.bits ∧ podStart B i / 2 ^ B.free = B.base / 2 ^ B.free) ↔
      HasRoom B i := by
  have hfree : B.free = 8 + (24 - B.len) := by
    unfold Block.free
    rw [hf]
    show 32 - B.len = _
    omega
  have hlt := B.base_lt
  unfold podStart HasRoom
  rw [hf] at hlt ⊢
  rw [hfree, div_eq_iff_room]
  simp only [reduceCtorEq, false_and, or_false]
  refine ⟨fun h => h.2, fun h => ⟨?_, h⟩⟩
  -- the quotient is that of an address, so the number is one
  have hpow : 2 ^ Family.v4.bits = 2 ^ B.len * 2 ^ (8 + (24 - B.len)) := by
    rw [← pow_add]
    congr 1
    show 32 = _
    omega
  have hquot := (div_eq_iff_room B.base 8 (24 - B.len) i).mpr h
  rw [hpow] at hlt ⊢
  rw [← Nat.div_lt_iff_lt_mul (by positivity)] at hlt ⊢
  rw [hquot]
  exact hlt

/-- Numbers on the two sides of a multiple are in different blocks. -/
theorem div_lt_div_of_mul {a b p q : ℕ} (hp : 0 < p) (ha : a < q * p) (hb : q * p ≤ b) :
    a / p < b / p :=
  calc
    a / p < q := (Nat.div_lt_iff_lt_mul hp).mpr ha
    _ ≤ b / p := (Nat.le_div_iff_mul_le hp).mpr hb

/-- Numbers a whole block apart are in different blocks. -/
theorem div_lt_div_of_add_le {a b p : ℕ} (hp : 0 < p) (h : a + p ≤ b) : a / p < b / p :=
  calc
    a / p < a / p + 1 := Nat.lt_succ_self _
    _ = (a + p) / p := (Nat.add_div_right a hp).symm
    _ ≤ b / p := Nat.div_le_div_right h

theorem inside_iff_v6 (hf : B.family = .v6) (hlen : B.len ≤ 64) {i : ℕ} (hi : i < 256) :
    (podStart B i < 2 ^ B.family.bits ∧ podStart B i / 2 ^ B.free = B.base / 2 ^ B.free) ↔
      HasRoom B i := by
  have hfree : B.free = 64 + (64 - B.len) := by
    unfold Block.free
    rw [hf]
    show 128 - B.len = _
    omega
  have hlt : B.base < 2 ^ 128 := by
    have := B.base_lt
    rwa [hf] at this
  have hstart : podStart B i = (B.base + 2 ^ 64 * i) % 2 ^ 128 := by
    unfold podStart
    rw [hf]
  have hroom : HasRoom B i ↔ (B.base + 2 ^ 64 * i) / 2 ^ B.free = B.base / 2 ^ B.free ∨ B.len = 0 := by
    unfold HasRoom
    rw [hf, hfree, div_eq_iff_room]
    simp [Family.carve, Family.bits]
  have haddr : podStart B i < 2 ^ B.family.bits := by
    rw [hstart, hf]
    exact Nat.mod_lt _ (by decide)
  rw [hroom, and_iff_right haddr, hstart]
  by_cases hzero : B.len = 0
  · have hall : B.free = 128 := by omega
    have hmod := Nat.mod_lt (B.base + 2 ^ 64 * i) (show 0 < 2 ^ 128 by decide)
    rw [hall, Nat.div_eq_of_lt hmod, Nat.div_eq_of_lt hlt]
    simp [hzero]
  · have hsmall : 2 ^ B.free ≤ 2 ^ 127 := Nat.pow_le_pow_right (by decide) (by omega)
    have hpow : 2 ^ 128 = 2 ^ B.len * 2 ^ B.free := by
      rw [← pow_add]
      congr 1
      omega
    simp only [hzero, or_false]
    by_cases hwrap : B.base + 2 ^ 64 * i < 2 ^ 128
    · rw [Nat.mod_eq_of_lt hwrap]
    · -- the base is among the last addresses: neither what wraps around nor what would
      -- follow is in its block
      refine iff_of_false ?_ ?_
      · exact (div_lt_div_of_add_le (by positivity) (by omega)).ne
      · rw [hpow] at hlt hwrap
        exact (div_lt_div_of_mul (by positivity) hlt (by omega)).ne'

theorem inside_iff (hlen : B.len ≤ Family.carve B.family) {i : ℕ} (hi : i < 256) :
    (podStart B i < 2 ^ B.family.bits ∧ podStart B i / 2 ^ B.free = B.base / 2 ^ B.free) ↔
      HasRoom B i := by
  cases hf : B.family with
  | v4 =>
    rw [hf] at hlen
    rw [← hf]
    exact inside_iff_v4 hf hlen i
  | v6 =>
    rw [hf] at hlen
    rw [← hf]
    exact inside_iff_v6 hf hlen hi

/-- Different indices carve different subnets, also where the addresses begin again. -/
theorem podStart_ne {i j : ℕ} (hi : i < 256) (hj : j < 256) (hne : i ≠ j) :
    podStart B i / 2 ^ (B.family.bits - Family.carve B.family) ≠
      podStart B j / 2 ^ (B.family.bits - Family.carve B.family) := by
  unfold podStart
  cases B.family with
  | v4 =>
    show (B.base + 2 ^ 8 * i) / 2 ^ 8 ≠ (B.base + 2 ^ 8 * j) / 2 ^ 8
    omega
  | v6 =>
    show (B.base + 2 ^ 64 * i) % 2 ^ 128 / 2 ^ 64 ≠ (B.base + 2 ^ 64 * j) % 2 ^ 128 / 2 ^ 64
    omega

theorem disjoint_podSubnets (h : Writes cfg.clusterCidr B) (hne : n.index ≠ m.index)
    (hP : cfg.PodSubnet n P) (hQ : cfg.PodSubnet m Q) : Disjoint P.addresses Q.addresses := by
  obtain ⟨hf, hbase, hlen⟩ := (podSubnet_iff h).mp hP
  obtain ⟨hf', hbase', hlen'⟩ := (podSubnet_iff h).mp hQ
  refine Block.disjoint_of_ne (hf.trans hf'.symm) (hlen.trans hlen'.symm) ?_
  unfold Block.free
  rw [hbase, hbase', hf', hlen']
  exact podStart_ne n.index.isLt m.index.isLt fun heq => hne (Fin.ext heq)

end start

/-! ## The assertions -/

/-- The fold of `unique` keeps its length at most as many entries as it is given, and loses one
    for every repetition. -/
theorem foldl_unique {l acc : List (Fin 256)}
    (h : (l.foldl (fun acc e => if e ∈ acc then acc else acc ++ [e]) acc).length =
      acc.length + l.length) : l.Nodup ∧ ∀ e ∈ l, e ∉ acc := by
  have hle : ∀ (l acc : List (Fin 256)),
      (l.foldl (fun acc e => if e ∈ acc then acc else acc ++ [e]) acc).length ≤
        acc.length + l.length := by
    intro l
    induction l with
    | nil => exact fun acc => le_rfl
    | cons e l ih =>
      intro acc
      rw [List.foldl_cons, List.length_cons]
      have := ih (if e ∈ acc then acc else acc ++ [e])
      split_ifs at this ⊢ with he
      · omega
      · rw [List.length_append, List.length_singleton] at this
        omega
  induction l generalizing acc with
  | nil => exact ⟨List.nodup_nil, by simp⟩
  | cons e l ih =>
    rw [List.foldl_cons, List.length_cons] at h
    by_cases he : e ∈ acc
    · rw [if_pos he] at h
      have := hle l acc
      omega
    · rw [if_neg he] at h
      obtain ⟨hnodup, hnot⟩ := ih (h.trans (by rw [List.length_append, List.length_singleton]; omega))
      have hel : e ∉ l := fun hmem => hnot e hmem (by simp)
      refine ⟨List.nodup_cons.mpr ⟨hel, hnodup⟩, List.forall_mem_cons.mpr ⟨he, ?_⟩⟩
      exact fun x hx hacc => hnot x hx (List.mem_append_left _ hacc)

section assertions

variable {cfg : Config} {B : Block}

theorem nodup_index (h : cfg.satisfied) : (cfg.nodeValues.map Node.index).Nodup := by
  have hunique : cfg.uniqueIndices.assertion = some true := h _ (by simp [Config.assertions])
  have hlength : cfg.nodeValues.length = (Config.unique (cfg.nodeValues.map Node.index)).length := by
    simpa [Config.uniqueIndices] using hunique
  refine (@foldl_unique _ [] ?_).1
  rw [List.length_nil, Nat.zero_add, List.length_map]
  exact hlength.symm

/-- Two nodes have different indices. -/
theorem index_ne (h : cfg.satisfied) {n m : Text × Node} (hn : n ∈ cfg.nodes) (hm : m ∈ cfg.nodes)
    (hne : n.1 ≠ m.1) : n.2.index ≠ m.2.index := by
  intro heq
  have hnodup := nodup_index h
  unfold Config.nodeValues at hnodup
  rw [List.map_map] at hnodup
  have hsame : n = m := List.inj_on_of_nodup_map hnodup hn hm heq
  exact hne (by rw [hsame])

theorem len_le_carve (h : cfg.satisfied) (hB : Writes cfg.clusterCidr B) :
    B.len ≤ Family.carve B.family := by
  have hinside : cfg.indexInside.assertion = some true := h _ (by simp [Config.assertions])
  unfold Config.indexInside at hinside
  rw [(writes_read hB).2.1, carve_eq hB] at hinside
  simp only [Option.map_some, Option.some.injEq, Bool.and_eq_true, decide_eq_true_eq] at hinside
  exact_mod_cast hinside.1

/-- The pod subnets lie in the cluster block and do not overlap, exactly when every index
    leaves room after the subnet that the base address is in. -/
theorem podSubnets_safe_iff (cfg : Config) (B : Block) (hB : Writes cfg.clusterCidr B)
    (h : cfg.satisfied) : cfg.CarvedSafely B ↔ ∀ n ∈ cfg.nodes, HasRoom B n.2.index := by
  have hinside : ∀ n : Text × Node,
      (∃ P, cfg.PodSubnet n.2 P ∧ P.addresses ⊆ B.addresses) ↔ HasRoom B n.2.index := fun n =>
    (exists_podSubnet_iff hB (len_le_carve h hB)).trans
      (inside_iff (len_le_carve h hB) n.2.index.isLt)
  constructor
  · intro hsafe n hn
    exact (hinside n).mp (hsafe.inside n hn)
  · intro hroom
    refine ⟨fun n hn => (hinside n).mpr (hroom n hn), ?_⟩
    intro n hn m hm hne P Q hP hQ
    exact disjoint_podSubnets hB (index_ne h hn hm hne) hP hQ

end assertions

/-- A server and an agent with the first two indices. -/
def twoNodes (clusterCidr : Text) : Config where
  role := .server
  nodeName := "a".toList
  controlPlaneEndpoint := none
  lbEnable := false
  clusterCidr := clusterCidr
  serviceCidr := "10.96.0.0/16".toList
  nodes :=
    [("a".toList, ⟨some "192.168.1.1".toList, ⟨0, by decide⟩, .server⟩),
      ("b".toList, ⟨some "192.168.1.2".toList, ⟨1, by decide⟩, .agent⟩)]
  nodup := by decide

/-- The block `10.244.c.0/16`. -/
def sixteen (c : ℕ) (hc : c < 256) : Block where
  family := .v4
  base := 183762944 + 256 * c
  len := 16
  base_lt := show _ < 2 ^ 32 by omega
  len_le := by decide

theorem writes_sixteen (c : ℕ) (hc : c < 256) :
    Writes ("10.244.".toList ++ decimal c ++ ".0/16".toList) (sixteen c hc) := by
  refine ⟨"10.244.".toList ++ decimal c ++ ".0".toList,
    ⟨[10, 244, c, 0], ⟨rfl, by simpa using hc, ?_⟩, ?_⟩, ?_⟩
  · have hten : decimal 10 = "10".toList := rfl
    have hrest : decimal 244 = "244".toList := rfl
    simp [joined, hten, hrest, show decimal 0 = ['0'] from rfl]
  · simp [sixteen]
    omega
  · simp [sixteen, show decimal 16 = ['1', '6'] from rfl]

/-- The two nodes in the block as it is written by default. -/
theorem podSubnets_safe_iff_aligned :
    (twoNodes "10.244.0.0/16".toList).satisfied ∧
      (twoNodes "10.244.0.0/16".toList).CarvedSafely (sixteen 0 (by decide)) := by
  have hsat : (twoNodes "10.244.0.0/16".toList).satisfied := by decide +kernel
  refine ⟨hsat, (podSubnets_safe_iff _ _ (writes_sixteen 0 (by decide)) hsat).mpr ?_⟩
  intro n hn
  refine Or.inl ?_
  have hbound := n.2.index.isLt
  show 0 / 2 ^ 8 + _ < 2 ^ 8
  omega

/-- The same block written with a later address of it: the second node owns `10.245.0.0/24`. -/
theorem podSubnet_outside :
    ¬ ∀ (cfg : Config) (B : Block), Writes cfg.clusterCidr B → cfg.satisfied →
      cfg.CarvedSafely B := by
  intro hall
  have hB : Writes (twoNodes "10.244.255.0/16".toList).clusterCidr (sixteen 255 (by decide)) :=
    writes_sixteen 255 (by decide)
  have hsafe := hall _ _ hB (by decide +kernel)
  have hinside := hsafe.inside ("b".toList, ⟨some "192.168.1.2".toList, 1, .agent⟩) (by decide)
  rw [exists_podSubnet_iff hB (by decide)] at hinside
  exact absurd hinside.2 (by decide)

end Kubenyx.Net
